import ChunkGuard.Proofs.Batch
import ChunkGuard.Proofs.History
import ChunkGuard.Proofs.Runs
import ChunkGuard.Proofs.Verdict

/-!
# Where bytes come from

Every byte that a stream over replicas hands out was brought by the last call that covers its
offset: it stood there in the replica that was current at that call, and if checksums were asked
for, its whole chunk came and passed against the replica's sidecar (`Brought`).
-/

namespace ChunkGuard

/-- The replicas were read and changed between, and the calls were noted. -/
structure Recorded.Grown (x y : Recorded Replicas) : Prop where
  moved : x.state.Moved y.state
  calls : x.calls <+: y.calls

theorem Replicas.respects_grown : source.recorded.Respects Recorded.Grown where
  refl x := ⟨.refl x.state, List.prefix_refl _⟩
  trans hxy hyz := ⟨hxy.moved.trans hyz.moved, hxy.calls.trans hyz.calls⟩
  read request x :=
    ((respects_moved.recorded.read request x).and (source.respects_calls.read request x)).mono
      (fun _ _ h => ⟨h.1, h.2⟩) (fun _ _ h => ⟨h.1, h.2⟩)
  switch position x :=
    ⟨respects_moved.recorded.switch position x, source.respects_calls.switch position x⟩

/-- The answer to a request holds the byte at an offset as the current replica had it. Where
checksums were asked for, it holds the whole chunk of the offset, and the chunk's checksum is the
one that stands for it in the replica's sidecar. -/
structure Replicas.Delivers (checksum : Option Algorithm) (chunk offset : Nat) (byte : UInt8)
    (before : Replicas) (request : Request) (data : Bytes) : Prop where
  stored : before.bytes[offset]? = some byte
  given : data[offset - request.position.toNat]? = some byte
  whole : request.capacity.isSome →
    request.position ≤ (offset / chunk * chunk : Nat) ∧
      Bytes.slice (offset / chunk * chunk - request.position.toNat) chunk data =
        Bytes.slice (offset / chunk * chunk) chunk before.bytes
  passes : request.capacity.isSome →
    (offset / chunk + 1) * sumWidth ≤ before.sidecar.length ∧
      ∃ a ∈ checksum, Chunk.Passes a chunk before.sidecar before.bytes (offset / chunk)

/-- The last call that was answered with the byte at an offset delivered this byte. -/
def Brought (checksum : Option Algorithm) (chunk offset : Nat) (byte : UInt8)
    (r : Recorded Replicas) : Prop :=
  ∃ before request data sums,
    r.bringer offset = some (.read before request (.ok (.chunk data sums))) ∧
      before.Delivers checksum chunk offset byte request data

theorem Brought.since {checksum : Option Algorithm} {chunk offset next : Nat} {byte : UInt8}
    {x y : Recorded Replicas} (h : Brought checksum chunk offset byte x)
    (hxy : Recorded.Since next x y) (hoffset : offset < next) :
    Brought checksum chunk offset byte y := by
  obtain ⟨before, request, data, sums, hbringer, hdelivers⟩ := h
  exact ⟨before, request, data, sums, (hxy.bringer_eq hoffset).trans hbringer, hdelivers⟩

/-- Only the calls matter. -/
theorem Brought.of_calls {checksum : Option Algorithm} {chunk offset : Nat} {byte : UInt8}
    {x y : Recorded Replicas} (h : Brought checksum chunk offset byte x)
    (hcalls : y.calls = x.calls) : Brought checksum chunk offset byte y := by
  obtain ⟨before, request, data, sums, hbringer, hdelivers⟩ := h
  refine ⟨before, request, data, sums, ?_, hdelivers⟩
  rw [Recorded.bringer, hcalls]
  exact hbringer

/-- The last call that was answered with the byte at an offset delivered this byte, and it was made
since the session, with checksums asked for as the session does. -/
def BroughtSince (checksum : Option Algorithm) (chunk offset : Nat) (byte : UInt8)
    (s : Session (Recorded Replicas)) (r : Recorded Replicas) : Prop :=
  ∃ before request data sums,
    r.bringer offset = some (.read before request (.ok (.chunk data sums))) ∧
      before.Delivers checksum chunk offset byte request data ∧
      .read before request (.ok (.chunk data sums)) ∈ r.calls.drop s.source.calls.length ∧
      s.source.state.Moved before ∧ request.capacity.isSome = s.stream.needsChecksum

theorem BroughtSince.brought {checksum : Option Algorithm} {chunk offset : Nat} {byte : UInt8}
    {s : Session (Recorded Replicas)} {r : Recorded Replicas}
    (h : BroughtSince checksum chunk offset byte s r) : Brought checksum chunk offset byte r := by
  obtain ⟨before, request, data, sums, hbringer, hdelivers, -⟩ := h
  exact ⟨before, request, data, sums, hbringer, hdelivers⟩

/-! ## What a single call brings -/

/-- An answer whose chunks pass, if checksums were asked for, delivers all of its bytes. -/
theorem Replicas.Part.delivers {checksum : Option Algorithm} {r : Replicas} {request : Request}
    {p : Nat} {data sums : Bytes} (h : r.Part request p data sums) (hchunk : 0 < r.chunk)
    (hfits : data.length + r.chunk ≤ Word.count)
    (hpasses : request.capacity.isSome → ∃ a ∈ checksum,
      ∀ index < Chunk.count data.length r.chunk, Chunk.Passes a r.chunk sums data index)
    {i : Nat} (hi : i < data.length) :
    ∃ byte, data[i]? = some byte ∧ r.Delivers checksum r.chunk (p + i) byte request data := by
  have hposition : request.position.toNat = p := by
    have hposition := h.position
    omega
  have hbyte : r.bytes[p + i]? = data[i]? := by
    rw [h.data_eq, Bytes.getElem?_slice, if_pos hi]
  have hindex : i / r.chunk < Chunk.count data.length r.chunk :=
    (Chunk.lt_count_iff hchunk hfits).mpr (Nat.lt_of_le_of_lt (Nat.div_mul_le_self _ _) hi)
  have hnumber : request.capacity.isSome → (p + i) / r.chunk = p / r.chunk + i / r.chunk := by
    intro hsome
    have hstart := Nat.div_add_mod p r.chunk
    rw [h.aligned hsome, Nat.add_zero] at hstart
    calc (p + i) / r.chunk = (r.chunk * (p / r.chunk) + i) / r.chunk := by rw [hstart]
      _ = p / r.chunk + i / r.chunk := Nat.mul_add_div hchunk _ _
  refine ⟨data[i], List.getElem?_eq_getElem hi, ?_, ?_, fun hsome => ?_, fun hsome => ?_⟩
  · rw [hbyte, List.getElem?_eq_getElem hi]
  · rw [hposition, Nat.add_sub_cancel_left, List.getElem?_eq_getElem hi]
  · have hstart : (p + i) / r.chunk * r.chunk = p + i / r.chunk * r.chunk := by
      rw [hnumber hsome, Nat.add_mul,
        Nat.div_mul_cancel (Nat.dvd_of_mod_eq_zero (h.aligned hsome))]
    have hslice := h.chunk_eq hsome (i / r.chunk) hindex
    rw [hposition, h.position, hstart, Nat.add_sub_cancel_left, hslice, Nat.add_mul,
      Nat.div_mul_cancel (Nat.dvd_of_mod_eq_zero (h.aligned hsome))]
    exact ⟨Int.ofNat_le.mpr (Nat.le_add_right _ _), rfl⟩
  · obtain ⟨a, ha, hall⟩ := hpasses hsome
    have hstored := h.stored hsome
    have hpart := (h.passes_iff hsome hindex a).mp (hall _ hindex)
    rw [hnumber hsome]
    exact ⟨Nat.le_trans (Nat.mul_le_mul_right _ (by omega)) hstored, a, ha, hpart⟩

/-! ## Streams with the chunks of their replicas -/

/-- A stream whose chunks are those of its replicas, and what of it operations leave as it is. -/
structure Session.Matched (checksum : Option Algorithm) (chunk : Nat)
    (s : Session (Recorded Replicas)) : Prop where
  checksum_eq : s.stream.checksum = checksum.map Checksum.ofAlgorithm
  maxChunk_eq : s.stream.maxChunk = chunk
  chunk_eq : s.source.state.chunk = chunk
  chunk_pos : 0 < chunk
  chunk_lt : chunk < Word.half
  room : checksum.isSome → s.stream.sums.length = chunksPerRead * sumWidth
  inOrder : s.source.state.InOrder

namespace Session.Matched

variable {checksum : Option Algorithm} {chunk : Nat} {s t : Session (Recorded Replicas)}

theorem ready (h : s.Matched checksum chunk) : s.stream.Ready := by
  intro c hc
  rw [h.checksum_eq] at hc
  obtain ⟨algorithm, -, rfl⟩ := Option.map_eq_some_iff.mp hc
  rfl

/-- What the source may do leaves a stream that is built as it was matched. -/
theorem moved (h : s.Matched checksum chunk) (hstream : s.stream.Alike t.stream)
    (hsource : s.source.state.Moved t.source.state) : t.Matched checksum chunk where
  checksum_eq := hstream.checksum.trans h.checksum_eq
  maxChunk_eq := hstream.maxChunk.trans h.maxChunk_eq
  chunk_eq := hsource.chunk.trans h.chunk_eq
  chunk_pos := h.chunk_pos
  chunk_lt := h.chunk_lt
  room hsome := hstream.room.trans (h.room hsome)
  inOrder := hsource.inOrder h.inOrder

theorem kept (h : s.Matched checksum chunk)
    (hst : s.Kept (fun x y => x.state.Moved y.state) t) : t.Matched checksum chunk :=
  h.moved hst.stream hst.source

theorem grown (h : s.Matched checksum chunk) (hst : s.Kept Recorded.Grown t) :
    t.Matched checksum chunk :=
  h.moved hst.stream hst.source.moved

theorem alike (h : s.Matched checksum chunk) (hst : s.stream.Alike t.stream)
    (hsource : t.source = s.source) : t.Matched checksum chunk :=
  h.moved hst (hsource ▸ Replicas.Moved.refl _)

/-- A stream that verifies has a checksum. -/
theorem checksum_of_needsChecksum (h : s.Matched checksum chunk) (hneeds : s.stream.needsChecksum) :
    ∃ a, checksum = some a ∧ s.stream.checksum = some (.ofAlgorithm a) := by
  have hchecksum := h.checksum_eq
  cases hc : checksum with
  | none =>
      rw [hc] at hchecksum
      rw [Stream.needsChecksum, hchecksum, Option.map_none, Option.isSome_none,
        Bool.and_false] at hneeds
      exact absurd hneeds Bool.false_ne_true
  | some a =>
      rw [hc] at hchecksum
      exact ⟨a, rfl, hchecksum⟩

end Session.Matched

/-! ## Where a fetch puts its bytes -/

namespace Stream.Target

variable {σ : Type} {target : Target} {s t u : Session σ} {data : Bytes} {size : Nat}

/-- The byte at an index of what was fetched. -/
def byteAt (target : Target) (i : Nat) (s : Session σ) : Option UInt8 :=
  match target with
  | .window => s.stream.window[i]?
  | .lent offset => s.lent[offset + i]?

/-- There is room for so many bytes. The window makes room. -/
def Room (target : Target) (size : Nat) (s : Session σ) : Prop :=
  match target with
  | .window => True
  | .lent offset => offset + size ≤ s.lent.length

/-- The lent buffer keeps its size, and its bytes before those fetched. -/
def Spares (target : Target) (s t : Session σ) : Prop :=
  t.lent.length = s.lent.length ∧
    match target with
    | .window => t.lent = s.lent
    | .lent offset => ∀ i < offset, t.lent[i]? = s.lent[i]?

theorem Spares.refl (target : Target) (s : Session σ) : target.Spares s s := by
  cases target with
  | window => exact ⟨rfl, rfl⟩
  | lent offset => exact ⟨rfl, fun _ _ => rfl⟩

theorem Spares.trans (h : target.Spares s t) (h' : target.Spares t u) : target.Spares s u := by
  cases target with
  | window => exact ⟨h'.1.trans h.1, h'.2.trans h.2⟩
  | lent offset => exact ⟨h'.1.trans h.1, fun i hi => (h'.2 i hi).trans (h.2 i hi)⟩

theorem Spares.room (h : target.Spares s t) (hs : target.Room size s) : target.Room size t := by
  cases target with
  | window => trivial
  | lent offset =>
      have hs : offset + size ≤ s.lent.length := hs
      show offset + size ≤ t.lent.length
      rw [h.1]
      exact hs

theorem spares_put (h : target.Room size s) (hdata : data.length ≤ size) :
    target.Spares s (target.put data s) := by
  cases target with
  | window => exact ⟨rfl, rfl⟩
  | lent offset =>
      have h : offset + size ≤ s.lent.length := h
      refine ⟨?_, fun i hi => ?_⟩
      · show (Bytes.write offset data s.lent).length = _
        rw [Bytes.length_write]
        omega
      · show (Bytes.write offset data s.lent)[i]? = _
        rw [Bytes.getElem?_write, if_pos hi, List.getD_eq_getElem?_getD,
          List.getElem?_eq_getElem (by omega), Option.getD_some]

theorem byteAt_put {i : Nat} (hi : i < data.length) :
    target.byteAt i (target.put data s) = data[i]? := by
  cases target with
  | window =>
      show (Bytes.write 0 data s.stream.window)[i]? = _
      rw [Bytes.getElem?_write, if_neg (Nat.not_lt_zero i), if_pos (by omega), Nat.sub_zero]
  | lent offset =>
      show (Bytes.write offset data s.lent)[offset + i]? = _
      rw [Bytes.getElem?_write, if_neg (by omega), if_pos (by omega), Nat.add_sub_cancel_left]

end Stream.Target

/-! ## Fetching -/

namespace Stream

/-- A fetch under way: the window is empty, the source will be read at `next`, and every call so far
was at `start` or after it. -/
structure Fetching (target : Target) (start next : Nat) (o s : Session (Recorded Replicas)) :
    Prop where
  kept : o.Kept Recorded.Grown s
  filled : s.stream.filled = 0
  cursor : s.stream.cursor = 0
  next_eq : s.stream.next = next
  since : Recorded.Since start o.source s.source
  spares : target.Spares o s

/-- What a fetch comes to: nothing where the replica read last has no more data, or bytes that were
brought from their offsets. -/
inductive Landed (checksum : Option Algorithm) (chunk : Nat) (target : Target) (size start : Nat)
    (o : Session (Recorded Replicas)) : Option Nat → Session (Recorded Replicas) → Prop where
  | nothing (t : Session (Recorded Replicas)) :
      Fetching target start start o t → t.source.state.size ≤ start →
      Landed checksum chunk target size start o none t
  | bytes (n : Nat) (t : Session (Recorded Replicas)) :
      0 < n → n ≤ size → Fetching target start (start + n) o t →
      (∀ i < n, ∃ byte, target.byteAt i t = some byte ∧
        BroughtSince checksum chunk (start + i) byte o t.source) →
      Landed checksum chunk target size start o (some n) t

namespace Fetching

variable {checksum : Option Algorithm} {chunk : Nat} {target : Target} {size p : Nat}
  {o s t : Session (Recorded Replicas)}

theorem told (h : Fetching target p p o s) (events : List Log.Event) :
    Fetching target p p o (s.told events) :=
  ⟨h.kept.told events, h.filled, h.cursor, h.next_eq, h.since, h.spares⟩

theorem switched (h : Fetching target p p o s) (position : Int) :
    Fetching target p p o (s.switched Replicas.source.recorded position) :=
  ⟨h.kept.switched Replicas.respects_grown position, h.filled, h.cursor, h.next_eq,
    h.since.trans (.push _ _ fun _ _ => rfl), h.spares⟩

/-- A call at the stream's position covers nothing before it. -/
theorem since_read (h : Fetching target p p o s) (outcome : Except StreamError Reply)
    (x : Replicas) :
    Recorded.Since p o.source
      (s.source.push (.read s.source.state (s.stream.ask size) outcome) x) := by
  refine h.since.trans (.push _ _ fun i hi => Call.covers_read_of_lt ?_)
  show (i : Int) < s.stream.next
  rw [h.next_eq]
  exact Int.ofNat_lt.mpr hi

theorem since_ok (h : Fetching target p p o s) {reply : Reply} {x : Recorded Replicas}
    (hread : Replicas.source.recorded.read (s.stream.ask size) s.source = .ok reply x) :
    Recorded.Since p o.source x := by
  obtain ⟨y, -, rfl⟩ := Source.read_recorded_eq_ok.mp hread
  exact h.since_read _ y

theorem since_error (h : Fetching target p p o s) {e : StreamError} {x : Recorded Replicas}
    (hread : Replicas.source.recorded.read (s.stream.ask size) s.source = .error e x) :
    Recorded.Since p o.source x := by
  obtain ⟨y, -, rfl⟩ := Source.read_recorded_eq_error.mp hread
  exact h.since_read _ y

section Parts

variable (ho : o.Matched checksum chunk) (hfits : size + chunk ≤ Word.count)
include ho hfits

/-- Data that came is a part of the current replica's data. -/
theorem part (h : Fetching target p p o s) {data sums : Bytes} {x : Recorded Replicas}
    (hread : Replicas.source.recorded.read (s.stream.ask size) s.source =
      .ok (.chunk data sums) x) :
    s.source.state.Part (s.stream.ask size) p data sums := by
  obtain ⟨y, hy, -⟩ := Source.read_recorded_eq_ok.mp hread
  have hs := ho.grown h.kept
  have hanswered := ((Replicas.ends_read s.source.state (s.stream.ask size)).ok hy).1
  have hsmall : min size s.source.state.size + s.source.state.chunk ≤ Word.count :=
    Nat.le_trans (Nat.add_le_add_right (Nat.min_le_left _ _) _) (hs.chunk_eq ▸ hfits)
  obtain ⟨p', hpart⟩ := hanswered.part (hs.chunk_eq ▸ hs.chunk_pos) (hs.chunk_eq ▸ hs.chunk_lt)
    hsmall
  have hposition : s.stream.next = (p' : Int) := hpart.position
  rw [h.next_eq] at hposition
  exact Int.ofNat_inj.mp hposition ▸ hpart

/-- With the data in its place, the fetch is under way as before. -/
theorem received (h : Fetching target p p o s) (hroom : target.Room size o) {data sums : Bytes}
    {x : Recorded Replicas}
    (hread : Replicas.source.recorded.read (s.stream.ask size) s.source =
      .ok (.chunk data sums) x) :
    Fetching target p p o (s.received target data sums x) := by
  have hpart := part ho hfits h hread
  have hput : target.Spares s (target.put data { s with source := x }) :=
    Target.spares_put (h.spares.room hroom) hpart.le_size
  refine ⟨h.kept.received Replicas.respects_grown hread, ?_, ?_, ?_, ?_, ?_⟩
  · cases target <;> exact h.filled
  · cases target <;> exact h.cursor
  · cases target <;> exact h.next_eq
  · rw [source_received]
    exact h.since_ok hread
  · refine h.spares.trans ?_
    cases target <;> exact hput

/-- Whatever an attempt comes to, the fetch is under way as before unless bytes passed. -/
theorem tried (h : Fetching target p p o s) (hroom : target.Room size o)
    {r : Except StreamError Attempt}
    (htried : Tried Replicas.source.recorded target size s r t)
    (hr : ∀ n, r ≠ .ok (.passed n)) : Fetching target p p o t := by
  have hkept := htried.kept Replicas.respects_grown h.kept
  cases htried with
  | refused e x hread =>
      exact ⟨hkept, h.filled, h.cursor, h.next_eq, h.since_error hread, h.spares⟩
  | ended below x hread =>
      exact ⟨hkept, h.filled, h.cursor, h.next_eq, h.since_ok hread, h.spares⟩
  | empty sums x hread => exact received ho hfits h hroom hread
  | crowded data sums x hread => exact received ho hfits h hroom hread
  | passed data sums x => exact absurd rfl (hr data.length)
  | damaged data sums x mismatch hread => exact received ho hfits h hroom hread

/-- Bytes that passed were brought from their offsets. -/
theorem passed (h : Fetching target p p o s) (hroom : target.Room size o) {n : Nat}
    (htried : Tried Replicas.source.recorded target size s (.ok (.passed n)) t) :
    Landed checksum chunk target size p o (some n) t := by
  have hkept := htried.kept Replicas.respects_grown h.kept
  cases htried with
  | passed data sums x hread hdata hsums hmismatch =>
      have hs := ho.grown h.kept
      have hpart := part ho hfits h hread
      have hreceived := received ho hfits h hroom hread
      have hle := hpart.le_size
      have hle : data.length ≤ size := hle
      obtain ⟨y, -, rfl⟩ := Source.read_recorded_eq_ok.mp hread
      -- The call just noted is the last one, so it is the one that brought its bytes.
      refine .bytes data.length _ (List.length_pos_iff.mpr hdata) hle
        ⟨hkept, hreceived.filled, hreceived.cursor, ?_, ?_, ?_⟩ fun i hi => ?_
      · show (s.received _ _ _ _).stream.next + (data.length : Int) = (p + data.length : Nat)
        rw [hreceived.next_eq]
        rfl
      · exact hreceived.since
      · exact hreceived.spares
      have hpasses : (s.stream.ask size).capacity.isSome → ∃ a ∈ checksum,
          ∀ index < Chunk.count data.length s.source.state.chunk,
            Chunk.Passes a s.source.state.chunk sums data index := by
        intro hsome
        have hneeds : s.stream.needsChecksum := (isSome_capacity s.stream).symm.trans hsome
        obtain ⟨a, ha, hc⟩ := hs.checksum_of_needsChecksum hneeds
        rw [mismatch?_received hsums (fun _ => ?_), verdict_eq_none hneeds hc] at hmismatch
        · rw [hs.chunk_eq]
          rw [hs.maxChunk_eq] at hmismatch
          exact ⟨a, ha, hmismatch⟩
        · exact Nat.le_of_eq (by rw [hs.maxChunk_eq, ← hs.chunk_eq, hpart.length_sums hsome])
      have hchunk : 0 < s.source.state.chunk := hs.chunk_eq ▸ hs.chunk_pos
      obtain ⟨byte, hbyte, hdelivers⟩ := hpart.delivers hchunk
        (by rw [hs.chunk_eq]; omega) hpasses hi
      have hput : target.byteAt i (target.put data s) = data[i]? := Target.byteAt_put hi
      refine ⟨byte, ?_, s.source.state, s.stream.ask size, data, sums, ?_,
        hs.chunk_eq ▸ hdelivers, ?_, h.kept.source.moved, ?_⟩
      · rw [← hbyte, ← hput]
        cases target <;> rfl
      · show Recorded.bringer _ (s.received target data sums _).source = _
        rw [source_received]
        refine Recorded.bringer_push (Call.covers_chunk.mpr ?_) y
        show s.stream.next ≤ _ ∧ _ < s.stream.next + _
        rw [h.next_eq]
        omega
      · show _ ∈ List.drop _ (s.received target data sums _).source.calls
        rw [source_received, Recorded.push, List.drop_append_of_le_length h.kept.source.calls.length_le]
        exact List.mem_append_right _ (List.mem_singleton.mpr rfl)
      · exact (isSome_capacity s.stream).trans h.kept.stream.needsChecksum

/-- Where the data has ended, the replica read now has nothing at the stream's position. -/
theorem ended (h : Fetching target p p o s) (hsize : 0 < size)
    (htried : Tried Replicas.source.recorded target size s (.ok .ended) t) :
    t.source.state.size ≤ p := by
  cases htried with
  | ended below x hread =>
      obtain ⟨y, hy, rfl⟩ := Source.read_recorded_eq_ok.mp hread
      obtain ⟨hanswered, hreread⟩ := (Replicas.ends_read s.source.state (s.stream.ask size)).ok hy
      show y.size ≤ p
      rw [hreread.size]
      cases hanswered with
      | outside hout =>
          have hout : s.stream.next < 0 ∨ (s.source.state.size : Int) ≤ s.stream.next := hout
          rw [h.next_eq] at hout
          omega
  | empty sums x hread =>
      exact absurd ((part ho hfits h hread).pos hsize) (Nat.lt_irrefl 0)

/-- Where the replica read now has nothing at the stream's position, nothing is fetched. -/
theorem eq_ended (h : Fetching target p p o s) (hend : s.source.state.size ≤ p)
    {r : Except StreamError Attempt}
    (htried : Tried Replicas.source.recorded target size s r t) : r = .ok .ended := by
  have hnone : ∀ data sums x, Replicas.source.recorded.read (s.stream.ask size) s.source =
      .ok (.chunk data sums) x → data = [] := fun data sums x hread => by
    have hinside := (part ho hfits h hread).inside
    exact List.length_eq_zero_iff.mp (by omega)
  cases htried with
  | refused e x hread =>
      obtain ⟨y, hy, -⟩ := Source.read_recorded_eq_error.mp hread
      have hanswered := ((Replicas.ends_read s.source.state (s.stream.ask size)).error hy).1
      have hposition : (s.stream.ask size).position = p := h.next_eq
      cases hanswered <;> omega
  | ended below x => rfl
  | empty sums x => rfl
  | crowded data sums x hread hdata => exact absurd (hnone data sums x hread) hdata
  | passed data sums x hread hdata => exact absurd (hnone data sums x hread) hdata
  | damaged data sums x mismatch hread hdata => exact absurd (hnone data sums x hread) hdata

/-- A fetch of nothing ends at once. -/
theorem ends_attempt_of_le (h : Fetching target p p o s) (hend : s.source.state.size ≤ p)
    (reseek : Int → StreamM (Recorded Replicas) Unit) (left : Nat) :
    Ends (attempt Replicas.source.recorded reseek target size (left + 1)) s
      (fun count _ => count = none) (fun _ _ => False) := by
  have hended : ∀ {r : Except StreamError Attempt} {t : Session (Recorded Replicas)},
      Tried Replicas.source.recorded target size s r t → r = .ok .ended :=
    eq_ended ho hfits h hend
  refine ends_attempt_succ (ho.grown h.kept).ready (fun _ _ => rfl) (fun count t ht => ?_)
    (fun e t ht => ?_) (fun _ data mismatch t ht => ?_) (fun _ data mismatch t ht _ => ?_)
    (fun _ data mismatch t ht _ => ?_)
  all_goals cases hended ht

/-- Between two attempts the stream stays where it is, for it is at the start of a chunk. -/
theorem reseeks (h : Fetching target p p o s) {data sums : Bytes} {x : Recorded Replicas}
    {mismatch : Mismatch} (hread : Replicas.source.recorded.read (s.stream.ask size) s.source =
      .ok (.chunk data sums) x)
    (hmismatch : (s.received target data sums x).stream.mismatch? data = some mismatch)
    {u : Session (Recorded Replicas)} (hu : Fetching target p p o u) :
    Replicas.source.recorded.start u.source u.stream.next = u.stream.next := by
  have hs := ho.grown h.kept
  have hu' := ho.grown hu.kept
  have haligned := (part ho hfits h hread).aligned (isSome_capacity_of_mismatch? hmismatch)
  rw [hs.chunk_eq] at haligned
  show Replicas.start u.source.state _ = _
  rw [hu.next_eq, Replicas.start, hu'.chunk_eq, Chunk.start_natCast ho.chunk_lt, haligned,
    Nat.sub_zero]

/-- A fetch comes to bytes that were brought from their offsets, or to nothing, or it fails without
having moved. -/
theorem ends_attempt (h : Fetching target p p o s) (hroom : target.Room size o) (hsize : 0 < size)
    (nesting : Nat) (attempts : Nat) :
    Ends (attempt Replicas.source.recorded (seekNested Replicas.source.recorded nesting) target
        size attempts) s
      (Landed checksum chunk target size p o) (fun _ => Fetching target p p o) := by
  induction attempts generalizing s with
  | zero => exact h
  | succ left ih =>
      have htried := fun r t (ht : Tried Replicas.source.recorded target size s r t)
        (hr : ∀ n, r ≠ .ok (.passed n)) => tried ho hfits h hroom ht hr
      refine ends_attempt_succ (ho.grown h.kept).ready ?ended ?passed ?failed ?last ?alone ?retried
      case ended =>
        intro t ht
        exact .nothing t (htried _ t ht fun n hn => by cases hn) (ended ho hfits h hsize ht)
      case passed =>
        intro count t ht
        exact passed ho hfits h hroom ht
      case failed =>
        intro e t ht
        exact htried _ t ht fun n hn => by cases hn
      case last =>
        intro _ data mismatch t ht
        exact (htried _ t ht fun n hn => by cases hn).told _
      case alone =>
        intro _ data mismatch t ht _
        exact ((htried _ t ht fun n hn => by cases hn).told _).switched _
      case retried =>
        intro _ data mismatch t ht _
        -- The seek before the next attempt stays, so the induction goes on from where this one was.
        have hu := (((htried _ t ht fun n hn => by cases hn).told
          [s.stream.corruption data]).switched s.stream.next).told
            [.switched s.stream.name s.stream.next left]
        have hnext := h.next_eq.trans hu.next_eq.symm
        cases ht with
        | damaged _ sums x _ hread _ _ hmismatch =>
            exact ends_seekNested_next (ho.grown hu.kept).ready hnext
              (reseeks ho hfits h hread hmismatch hu) hu.filled hu.cursor (ih hu)

end Parts

end Fetching

end Stream

end ChunkGuard
