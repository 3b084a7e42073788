import ChunkGuard.Proofs.Backing

/-!
# What a stream hands out was brought

Between operations every byte of the window was brought from the offset that it stands for
(`Session.Sound`), whatever was read, sought, damaged, changed or turned on and off before. So
every byte that a read hands out was brought from where the stream was.
-/

namespace ChunkGuard

open Session

/-- That a byte was brought is known in every session, and it stays known. -/
theorem evidence_brought (checksum : Option Algorithm) (chunk : Nat) :
    Evidence checksum chunk (Brought checksum chunk) fun _ => True where
  brought _ h := h.brought
  since h hxy hoffset := h.since hxy hoffset
  kept _ _ := trivial

/-- Every byte of the window was brought from its offset, and the stream is somewhere in the
window. -/
abbrev Session.Sound (checksum : Option Algorithm) (chunk : Nat)
    (s : Session (Recorded Replicas)) : Prop :=
  s.Backed (Brought checksum chunk) checksum chunk

namespace Session.Sound

variable {checksum : Option Algorithm} {chunk : Nat} {s : Session (Recorded Replicas)}

/-- Reading a byte gives one that was brought from where the stream was. -/
theorem ends_readByte (h : s.Sound checksum chunk) :
    Ends (Stream.readByte Replicas.source.recorded) s
      (fun byte t => t.Sound checksum chunk ∧ t.lent = s.lent ∧
        ∀ b ∈ byte, Brought checksum chunk s.stream.position.toNat b t.source)
      (fun _ t => t.Sound checksum chunk ∧ t.lent = s.lent) :=
  (Backed.ends_readByte (evidence_brought checksum chunk) trivial h).mono
    (fun _ _ ht => ⟨ht.1.backed, ht.1.lent, ht.2.1⟩) (fun _ _ ht => ⟨ht.backed, ht.lent⟩)

/-- A read hands out bytes that were brought from where the stream was. -/
theorem ends_read (h : s.Sound checksum chunk) (offset size : Nat) :
    Ends (Stream.read Replicas.source.recorded offset size) s
      (fun count t =>
        Backed.Delivered (Brought checksum chunk) checksum chunk offset (count.getD 0) s t)
      (fun _ _ => True) :=
  (Backed.ends_read (evidence_brought checksum chunk) trivial h offset size).mono
    (fun _ _ ht => ht.1) (fun _ _ _ => trivial)

/-- Every operation keeps the window sound, also one that fails, that changes replicas or that
turns verification on or off. -/
theorem keeps {operation : Operation} (hfits : operation.Fits) :
    Keeps (Sound checksum chunk) (operation.perform Replicas.source.recorded) := fun s h =>
  (Backed.keeps (evidence_brought checksum chunk) hfits (fun _ _ _ _ => trivial) s
    ⟨h, trivial⟩).mono (fun _ _ ht => ht.1) (fun _ _ ht => ht.1)

end Session.Sound

/-- The storages of the replicas were changed in whatever way, with the same replicas, of which the
same is read and the same are marked. -/
structure Recorded.Restocked (x y : Recorded Replicas) : Prop where
  calls : y.calls = x.calls
  chunk : y.state.chunk = x.state.chunk
  current : y.state.current = x.state.current
  marked : y.state.marked = x.state.marked
  length : y.state.list.length = x.state.list.length

theorem Recorded.Restocked.inOrder {x y : Recorded Replicas} (h : Recorded.Restocked x y)
    (hx : x.state.InOrder) : y.state.InOrder := by
  refine ⟨?_, ?_, ?_, ?_⟩
  · rw [h.current, h.length]
    exact hx.current_lt
  · rw [h.current, h.marked]
    exact hx.marked_of_lt
  · rw [h.current, h.marked]
    exact hx.le_of_marked
  · rw [h.current, h.marked, h.length]
    exact hx.last_of_marked

/-- What is in the window was brought earlier, so it doesn't matter what is stored now. -/
theorem Session.Backed.restocked {B : Nat → UInt8 → Recorded Replicas → Prop}
    {checksum : Option Algorithm} {chunk : Nat} {s : Session (Recorded Replicas)}
    (h : s.Backed B checksum chunk) {x : Recorded Replicas} (hx : Recorded.Restocked s.source x)
    (hB : ∀ offset byte, B offset byte s.source → B offset byte x) :
    Backed B checksum chunk { s with source := x } := by
  have hmatched := h.matched
  refine ⟨⟨hmatched.checksum_eq, hmatched.maxChunk_eq, hx.chunk.trans hmatched.chunk_eq,
    hmatched.chunk_pos, hmatched.chunk_lt, hmatched.room, hx.inOrder hmatched.inOrder⟩, h.room,
    h.cursor_le, h.filled_le, h.filled_le_chunk, fun i hi => ?_⟩
  obtain ⟨byte, hbyte, hbacked⟩ := h.window i hi
  exact ⟨byte, hbyte, hB _ _ hbacked⟩

/-- Nothing is in the window of a stream that was just built, with the chunks of its replicas. -/
theorem Session.Backed.of_new {B : Nat → UInt8 → Recorded Replicas → Prop}
    {checksum : Option Algorithm} {options : Options}
    {list : List (Option Storage × Option Storage)} {replicas : Replicas} {stream : Stream}
    (hreplicas : Replicas.ofList? list options.maxChunk = .ok replicas)
    (hstream : Stream.ofOptions? checksum options = .ok stream)
    (hchunk : options.maxChunk < Word.half) :
    Backed B checksum options.maxChunk { stream, source := { state := replicas } } := by
  obtain ⟨hpos, -, rfl⟩ := Stream.eq_of_ofOptions? hstream
  obtain ⟨hlist, hnonempty, -, hbuilt⟩ := Replicas.eq_of_ofList? hreplicas
  have horder : replicas.InOrder := by
    rw [hbuilt]
    refine Replicas.inOrder_of_new fun hnil => hnonempty ?_
    rw [hlist, hnil, List.map_nil]
  refine .of_empty ⟨rfl, rfl, ?_, hpos, hchunk, fun hsome => ?_, horder⟩ (by decide : 0 < Word.half)
    rfl rfl (Int.le_refl 0)
  · show replicas.chunk = _
    rw [hbuilt]
  · show (if checksum.isSome then Bytes.zeros (chunksPerRead * sumWidth) else []).length = _
    rw [if_pos hsome]
    exact Bytes.length_zeros _

theorem Session.Sound.of_reaches {checksum : Option Algorithm} {options : Options}
    {list : List (Option Storage × Option Storage)} {replicas : Replicas} {stream : Stream}
    {t : Session (Recorded Replicas)}
    (hreplicas : Replicas.ofList? list options.maxChunk = .ok replicas)
    (hstream : Stream.ofOptions? checksum options = .ok stream)
    (hchunk : options.maxChunk < Word.half)
    (ht : Session.Reaches Replicas.source.recorded Operation.Fits Recorded.Restocked
      { stream, source := { state := replicas } } t) : t.Sound checksum options.maxChunk :=
  ht.keeps (.of_new hreplicas hstream hchunk) (fun _ => Session.Sound.keeps)
    (fun _ _ h hx => h.restocked hx fun _ _ hbrought => hbrought.of_calls hx.calls)

/-- On replicas whose chunks are the stream's, every byte that is read was brought from where the
stream was by the last call that covers its offset, whatever the run before: the current replica of
that call had the byte there, and if the call asked for checksums, it brought the byte's whole
chunk as the replica had it, with the checksum that stands for it in the replica's sidecar. -/
theorem brought_of_reaches {checksum : Option Algorithm} {options : Options}
    {list : List (Option Storage × Option Storage)} {replicas : Replicas} {stream : Stream}
    {t : Session (Recorded Replicas)}
    (hreplicas : Replicas.ofList? list options.maxChunk = .ok replicas)
    (hstream : Stream.ofOptions? checksum options = .ok stream)
    (hchunk : options.maxChunk < Word.half)
    (ht : Session.Reaches Replicas.source.recorded Operation.Fits Recorded.Restocked
      { stream, source := { state := replicas } } t) :
    0 ≤ t.stream.position ∧
      (∀ byte u, Operation.readByte.perform Replicas.source.recorded t = .ok (.byte (some byte)) u →
        Brought checksum options.maxChunk t.stream.position.toNat byte u.source) ∧
      ∀ buffer offset size count u, buffer.length < Word.half →
        (Operation.read buffer offset size).perform Replicas.source.recorded t =
          .ok (.count count) u →
        ∀ i : Nat, i < count → ∃ byte, u.lent[offset + i]? = some byte ∧
          Brought checksum options.maxChunk (t.stream.position.toNat + i) byte u.source := by
  have hsound := Session.Sound.of_reaches hreplicas hstream hchunk ht
  refine ⟨hsound.position_nonneg, fun byte u hu => ?_, fun buffer offset size count u hbuffer hu => ?_⟩
  · have hends : Ends (Operation.readByte.perform Replicas.source.recorded) t
        (fun outcome u => ∀ byte, outcome = .byte (some byte) →
          Brought checksum options.maxChunk t.stream.position.toNat byte u.source)
        (fun _ _ => True) := by
      simp only [Operation.perform, ends_bind, ends_pure]
      refine hsound.ends_readByte.mono (fun b u hu byte hbyte => ?_) (fun _ _ _ => trivial)
      cases hbyte
      exact hu.2.2 byte rfl
    exact hends.ok hu byte rfl
  · have hlent : Session.Sound checksum options.maxChunk { t with lent := buffer } :=
      ⟨hsound.matched.alike (.refl _) rfl, hbuffer, hsound.cursor_le, hsound.filled_le,
        hsound.filled_le_chunk, hsound.window⟩
    have hends : Ends ((Operation.read buffer offset size).perform Replicas.source.recorded) t
        (fun outcome u => ∀ count, outcome = .count count → ∀ i : Nat, i < count →
          ∃ byte, u.lent[offset + i]? = some byte ∧
            Brought checksum options.maxChunk (t.stream.position.toNat + i) byte u.source)
        (fun _ _ => True) := by
      simp only [Operation.perform, ends_bind, ends_pure, Operation.ends_lend, Stream.seekable]
      refine (hlent.ends_read offset size).mono (fun r u hu => ?_) (fun _ _ _ => trivial)
      cases r with
      | none =>
          intro count hcount i hi
          cases hcount
          omega
      | some r =>
          intro count hcount i hi
          cases hcount
          have hr : i < r := by omega
          exact hu.bytes i hr
    exact hends.ok hu count rfl

/-- A seek finds the first of two replicas damaged, and the byte read then is the second one's. -/
theorem brought_from_second_replica :
    ∃ replicas stream,
      Replicas.ofList?
        ([⟨{ bytes := [7, 2, 3] }, { bytes := Sidecar.ofBytes .crc32 2 [1, 2, 3] }⟩,
          Replica.ofBytes .crc32 2 [1, 2, 3]].map Replica.storages) 2 = .ok replicas ∧
      Stream.ofOptions? (some .crc32) { maxChunk := 2 } = .ok stream ∧
      Ends (Operation.readByte.perform Replicas.source.recorded)
        ((Operation.seek 1).after Replicas.source.recorded
          { stream, source := { state := replicas } })
        (fun outcome t => outcome = .byte (some 2) ∧ t.source.state.current = 1 ∧
          Brought (some .crc32) 2 1 2 t.source)
        (fun _ _ => False) := by
  have hreplicas : Replicas.ofList?
      ([⟨{ bytes := [7, 2, 3] }, { bytes := Sidecar.ofBytes .crc32 2 [1, 2, 3] }⟩,
        Replica.ofBytes .crc32 2 [1, 2, 3]].map Replica.storages) 2 = .ok _ := rfl
  have hstream : Stream.ofOptions? (some .crc32) { maxChunk := 2 } = .ok _ := rfl
  refine ⟨_, _, hreplicas, hstream, ?_⟩
  generalize hs : (Operation.seek 1).after (Replicas.source : Source Replicas).recorded _ = s
  have hrun : s.stream.position = 1 ∧ Ends (Operation.readByte.perform Replicas.source.recorded) s
      (fun outcome t => outcome = .byte (some 2) ∧ t.source.state.current = 1)
      (fun _ _ => False) := by
    rw [← hs]
    decide +kernel
  obtain ⟨hposition, hrun⟩ := hrun
  obtain ⟨_, t, ht, rfl, hcurrent⟩ := hrun.exists_ok
  have hbrought := (brought_of_reaches hreplicas hstream (by decide)
    (hs ▸ .perform (.seek 1) .refl (fun _ hbuffer => absurd hbuffer (Option.not_mem_none _)))).2.1
      2 t ht
  rw [hposition] at hbrought
  exact .of_ok ht ⟨rfl, hcurrent, hbrought⟩

end ChunkGuard
