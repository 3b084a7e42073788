import ChunkGuard.Proofs.Safety

/-!
# Where the end of the data is told

A stream tells the end of the data by the data alone, and the sidecar has no say in it. So a replica
that lost its tail at the start of a chunk reads like shorter data, even if its sidecar lists
chunks that aren't there any more. `end_told_by_data` says where the end is told, and that it is told
too early in some run exactly if a sidecar is longer than its data needs.
-/

namespace ChunkGuard

open Session

/-! ## Runs without a range -/

/-- Every operation ends its way somewhere. -/
theorem Operation.exists_within (operation : Operation) : ∃ reach, operation.Within reach := by
  cases operation with
  | readAt position => exact ⟨position, Int.le_refl _⟩
  | readFullyAt position => exact ⟨position, Int.le_refl _⟩
  | seek position => exact ⟨position, Int.le_refl _⟩
  | _ => exact ⟨0, trivial⟩

theorem Operation.Within.mono {operation : Operation} {reach reach' : Int}
    (h : operation.Within reach) (hle : reach ≤ reach') : operation.Within reach' := by
  cases operation with
  | readAt position => exact Int.le_trans h hle
  | readFullyAt position => exact Int.le_trans h hle
  | seek position => exact Int.le_trans h hle
  | _ => trivial

/-- The data of replicas ends somewhere. -/
theorem Replicas.exists_length_le (r : Replicas) :
    ∃ most : Int, ∀ i, ((r.get i).data.bytes.length : Int) ≤ most := by
  let sizes := r.list.map fun replica => replica.data.size
  have hbelow : r.Below (sizes.max?.getD 0 + 1) := fun replica hreplica =>
    Nat.lt_succ_of_le (List.le_max?_getD_of_mem (List.mem_map.mpr ⟨replica, hreplica, rfl⟩))
  refine ⟨(sizes.max?.getD 0 + 1 : Nat), fun i => ?_⟩
  exact Int.ofNat_le.mpr (Nat.le_of_lt (hbelow.length_lt (Nat.succ_pos _) i))

/-- The stream is somewhere in range, and it verifies what it fetches. -/
structure Session.Verifying (checksum : Option Algorithm) (chunk : Nat)
    (s : Session (Recorded Replicas)) : Prop where
  inRange : ∃ most reach, s.InRange checksum chunk most reach
  needs : s.stream.needsChecksum

namespace Session.Verifying

variable {checksum : Option Algorithm} {chunk : Nat} {s : Session (Recorded Replicas)}

/-- A stream verifies until it is told not to. -/
theorem keeps {operation : Operation} (hoperation : operation ≠ .setVerify false) :
    Keeps (Verifying checksum chunk) (operation.perform Replicas.source.recorded) := by
  intro s hs
  obtain ⟨⟨most, reach, h⟩, hneeds⟩ := hs
  obtain ⟨far, hfar⟩ := operation.exists_within
  have hwide := h.mono (Int.le_refl most) (Int.le_max_left reach (max far Word.maxSigned))
    (Int.le_trans h.most_le (Int.le_max_left _ _))
  have hends := hwide.ends_perform (Int.le_trans (Int.le_max_right _ _) (Int.le_max_right _ _))
    (hfar.mono (Int.le_trans (Int.le_max_left _ _) (Int.le_max_right _ _)))
  by_cases htoggle : ∃ verify, operation = .setVerify verify
  · obtain ⟨verify, rfl⟩ := htoggle
    cases verify with
    | false => exact absurd rfl hoperation
    | true =>
        refine ⟨⟨_, _, hends⟩, ?_⟩
        rw [Stream.needsChecksum, Bool.and_eq_true] at hneeds
        exact hneeds.2
  · have hkept := Operation.kept_perform Replicas.respects_grown h.matched.ready
      fun verify hverify => htoggle ⟨verify, hverify⟩
    exact (hends.and hkept).mono
      (fun _ t ht => ⟨⟨_, _, ht.1⟩, ht.2.stream.needsChecksum.trans hneeds⟩)
      (fun _ t ht => ⟨⟨_, _, ht.1.1⟩, ht.2.stream.needsChecksum.trans hneeds⟩)

theorem restocked (h : s.Verifying checksum chunk) {x : Recorded Replicas}
    (hx : Recorded.Restocked s.source x) : Verifying checksum chunk { s with source := x } := by
  obtain ⟨⟨most, reach, h⟩, hneeds⟩ := h
  obtain ⟨far, hfar⟩ := x.state.exists_length_le
  have hwide := h.mono (Int.le_max_left most far) (Int.le_max_left reach (max most far))
    (Int.le_max_right _ _)
  exact ⟨⟨_, _, hwide.restocked hx fun i => Int.le_trans (hfar i) (Int.le_max_right _ _)⟩, hneeds⟩

theorem of_new {options : Options} {list : List (Option Storage × Option Storage)}
    {replicas : Replicas} {stream : Stream}
    (hreplicas : Replicas.ofList? list options.maxChunk = .ok replicas)
    (hstream : Stream.ofOptions? checksum options = .ok stream)
    (hchunk : options.maxChunk < Word.half) (hverify : stream.needsChecksum) :
    Verifying checksum options.maxChunk { stream, source := { state := replicas } } := by
  obtain ⟨most, hmost⟩ := replicas.exists_length_le
  exact ⟨⟨most, most, .of_new hreplicas hstream hchunk hmost (Int.le_refl _)⟩, hverify⟩

end Session.Verifying

/-! ## Reports of the end -/

/-- `P` holds wherever a single read comes to that tells the end of the data: it gives no byte, or
fewer than asked for, or a count of −1. -/
structure Session.EndsWith (P : Session (Recorded Replicas) → Prop)
    (s : Session (Recorded Replicas)) : Prop where
  byte : ∀ t, Operation.readByte.perform Replicas.source.recorded s = .ok (.byte none) t → P t
  count : ∀ buffer offset size count t,
    (Operation.read buffer offset size).perform Replicas.source.recorded s = .ok (.count count) t →
      count < size → P t

theorem Session.EndsWith.mono {P P' : Session (Recorded Replicas) → Prop}
    {s : Session (Recorded Replicas)} (h : s.EndsWith P)
    (hP : ∀ operation : Operation, operation ≠ .setVerify false →
      P (operation.after Replicas.source.recorded s) →
      P' (operation.after Replicas.source.recorded s)) : s.EndsWith P' where
  byte t ht := by
    have hafter : Operation.readByte.after Replicas.source.recorded s = t := by
      rw [Operation.after, ht]
    exact hafter ▸ hP .readByte (by rintro ⟨⟩) (hafter ▸ h.byte t ht)
  count buffer offset size count t ht hless := by
    have hafter : (Operation.read buffer offset size).after Replicas.source.recorded s = t := by
      rw [Operation.after, ht]
    exact hafter ▸ hP (.read buffer offset size) (by rintro ⟨⟩)
      (hafter ▸ h.count buffer offset size count t ht hless)

/-- The sidecar of the replica read now holds no checksum of a chunk that starts at the stream's
position or after it. -/
def Session.Complete (chunk : Nat) (s : Session (Recorded Replicas)) : Prop :=
  s.source.state.sidecar.length ≤ sumWidth * ((s.stream.position.toNat + chunk - 1) / chunk)

instance (chunk : Nat) (s : Session (Recorded Replicas)) : Decidable (s.Complete chunk) :=
  inferInstanceAs (Decidable (_ ≤ _))

namespace Session.InRange

variable {checksum : Option Algorithm} {chunk : Nat} {most reach : Int}
  {s : Session (Recorded Replicas)}

/-- The end is told only where the replica read now has no more data. -/
theorem endsWith_ended (h : s.InRange checksum chunk most reach) : s.EndsWith Session.Ended where
  byte t ht := by
    have hends : Ends (Operation.readByte.perform Replicas.source.recorded) s
        (fun outcome t => outcome = .byte none → t.Ended) (fun _ _ => True) := by
      simp only [Operation.perform, ends_bind, ends_pure]
      refine h.ends_readByte.mono (fun byte t ht hnone => ?_) (fun _ _ _ => trivial)
      cases hnone
      exact (ht.2 rfl).1
    exact hends.ok ht rfl
  count buffer offset size count t ht hless := by
    have hends : Ends ((Operation.read buffer offset size).perform Replicas.source.recorded) s
        (fun outcome t => outcome = .count count → t.Ended) (fun _ _ => True) := by
      simp only [Operation.perform, ends_bind, ends_pure, Operation.ends_lend,
        Stream.ends_seekable_read]
      refine ((h.lending buffer).ends_read offset size).mono (fun read t ht hcount => ?_)
        (fun _ _ _ => trivial)
      obtain ⟨-, -, hend, hsome⟩ := ht
      cases read with
      | none => exact hend (hsome rfl)
      | some n =>
          cases hcount
          exact hend (Int.ofNat_lt.mp hless)
    exact hends.ok ht rfl

/-- Where the replica read now has no more data, the end is told, and the stream stays. -/
theorem readByte_of_ended (h : s.InRange checksum chunk most reach) (hend : s.Ended) :
    ∃ t, Operation.readByte.perform Replicas.source.recorded s = .ok (.byte none) t ∧
      Stayed s t := by
  have hends : Ends (Operation.readByte.perform Replicas.source.recorded) s
      (fun outcome t => outcome = .byte none ∧ Stayed s t) (fun _ _ => False) := by
    simp only [Operation.perform, ends_bind, ends_pure]
    refine (h.ends_readByte_of_ended hend).mono (fun byte t ht => ?_) (fun _ _ ht => ht)
    exact ⟨congrArg Outcome.byte ht.1, ht.2⟩
  obtain ⟨outcome, t, ht, rfl, hstayed⟩ := hends.exists_ok
  exact ⟨t, ht, hstayed⟩

theorem read_of_ended (h : s.InRange checksum chunk most reach) (hend : s.Ended) {buffer : Bytes}
    {offset size : Nat} (hsize : 0 < size) (hroom : offset + size ≤ buffer.length) :
    ∃ t, (Operation.read buffer offset size).perform Replicas.source.recorded s =
      .ok (.count (-1)) t ∧ Stayed s t := by
  have hends : Ends ((Operation.read buffer offset size).perform Replicas.source.recorded) s
      (fun outcome t => outcome = .count (-1) ∧ Stayed s t) (fun _ _ => False) := by
    simp only [Operation.perform, ends_bind, ends_pure, Operation.ends_lend,
      Stream.ends_seekable_read]
    have hlent : Session.Ended { s with lent := buffer } := ⟨hend.used, hend.size_le⟩
    refine ((h.lending buffer).ends_read_of_ended hlent hsize).mono (fun count t ht => ?_)
      (fun e t ht => absurd hroom (Nat.not_le_of_lt ht.2))
    obtain ⟨rfl, hstayed⟩ := ht
    exact ⟨rfl, hstayed.ended, hstayed.position, hstayed.reread⟩
  obtain ⟨outcome, t, ht, rfl, hstayed⟩ := hends.exists_ok
  exact ⟨t, ht, hstayed⟩

end Session.InRange

/-! ## Replicas whose sidecars are longer than their data -/

/-- The sidecar of each replica is no longer than its data needs. -/
def Replicas.Trim (chunk : Nat) (r : Replicas) : Prop :=
  ∀ replica ∈ r.list, replica.sums.size ≤ sumWidth * ((replica.data.size + chunk - 1) / chunk)

/-- Where the data of a trim replica has ended, its sidecar has too. -/
theorem Session.Ended.complete {chunk : Nat} {s : Session (Recorded Replicas)} (h : s.Ended)
    (hs : s.source.state.sidecar.length ≤
      sumWidth * ((s.source.state.size + chunk - 1) / chunk)) : s.Complete chunk := by
  have hsize := h.size_le
  refine Nat.le_trans hs (Nat.mul_le_mul_left _ (Nat.div_le_div_right ?_))
  omega

/-- After so many changes the replica at that index is read, and nothing else has changed. -/
theorem Session.Reaches.exists_switched (allowed : Operation → Prop) {replicas : Replicas}
    (hallowed : ∀ position, allowed (.switch position)) (horder : replicas.InOrder)
    (hstart : replicas.current = 0) (stream : Stream) {i : Nat} (hi : i < replicas.list.length) :
    ∃ t, Session.Reaches Replicas.source.recorded allowed (fun _ _ => False)
        { stream, source := { state := replicas } } t ∧
      t.stream = stream ∧ t.source.state.InOrder ∧ t.source.state.current = i ∧
      t.source.state.list = replicas.list ∧ t.source.state.chunk = replicas.chunk := by
  induction i with
  | zero => exact ⟨_, .refl, rfl, horder, hstart, rfl, rfl⟩
  | succ i ih =>
      obtain ⟨t, ht, hstream, horder, hcurrent, hlist, hchunk⟩ := ih (Nat.lt_of_succ_lt hi)
      refine ⟨_, .perform (.switch 0) ht (hallowed 0), hstream, horder.switch 0, ?_, ?_, ?_⟩
      · have hnext := Replicas.switch_next horder (by rw [hcurrent, hlist]; exact hi) 0
        show (Replicas.switch 0 t.source.state).2.current = i + 1
        rw [hnext, hcurrent]
      · show (Replicas.switch 0 t.source.state).2.list = _
        rw [Replicas.list_switch, hlist]
      · show (Replicas.switch 0 t.source.state).2.chunk = _
        rw [Replicas.chunk_switch, hchunk]

/-- A seek past the window to the start of a chunk fetches nothing. -/
theorem Operation.after_seek_start {s : Session (Recorded Replicas)} {position : Nat}
    (hnext : s.stream.next ≤ position)
    (hstart : Replicas.source.recorded.start s.source position = position) :
    (Operation.seek position).after Replicas.source.recorded s = s.jumped position := by
  refine Operation.after_of_ends (I := fun t => t = s.jumped position) ?_
  simp only [Operation.perform, ends_bind, ends_pure, Stream.ends_seek]
  rw [Stream.seekNested, Stream.ends_seekWith, hstart, Int.sub_self]
  exact ⟨fun hneg => absurd hneg (by omega), fun _ => ⟨fun hwindow => absurd hwindow (by omega),
    fun _ => ⟨fun hbefore => absurd hbefore (Int.lt_irrefl _),
      fun _ => Stream.ends_discardWith_zero rfl⟩⟩⟩

/-- Some run comes to the end of the data of each replica, at the first start of a chunk that is no
start of a chunk of the data. -/
theorem Session.Reaches.exists_ended {checksum : Option Algorithm} {options : Options}
    {list : List (Option Storage × Option Storage)} {replicas : Replicas} {stream : Stream}
    (hreplicas : Replicas.ofList? list options.maxChunk = .ok replicas)
    (hstream : Stream.ofOptions? checksum options = .ok stream)
    (hchunk : options.maxChunk < Word.half) {i : Nat} (hi : i < replicas.list.length) :
    ∃ t, Session.Reaches Replicas.source.recorded (· ≠ .setVerify false) (fun _ _ => False)
        { stream, source := { state := replicas } } t ∧ t.Ended ∧
      t.stream.position = ((replicas.list[i].data.size + options.maxChunk - 1) / options.maxChunk *
        options.maxChunk : Nat) ∧
      t.source.state.sidecar = replicas.list[i].sums.bytes := by
  obtain ⟨hlist, hnonempty, hpos, hbuilt⟩ := Replicas.eq_of_ofList? hreplicas
  have horder : replicas.InOrder := by
    rw [hbuilt]
    exact Replicas.inOrder_of_new fun hnil => hnonempty (by rw [hlist, hnil]; rfl)
  obtain ⟨t, ht, hsame, -, hcurrent, hlist, hchunkEq⟩ :=
    Session.Reaches.exists_switched (· ≠ .setVerify false) (fun _ => nofun) horder
      (by rw [hbuilt]) stream hi
  have hget : t.source.state.get t.source.state.current = replicas.list[i] := by
    rw [hcurrent, Replicas.get, hlist, ← Replicas.get, Replicas.get_eq_getElem hi]
  generalize hend : (replicas.list[i].data.size + options.maxChunk - 1) / options.maxChunk = chunks
  have hsize : replicas.list[i].data.size ≤ chunks * options.maxChunk := by
    have hround := Nat.lt_div_mul_add hpos (a := replicas.list[i].data.size + options.maxChunk - 1)
    rw [hend] at hround
    omega
  have hstart : Replicas.source.recorded.start t.source (chunks * options.maxChunk : Nat) =
      (chunks * options.maxChunk : Nat) := by
    show Replicas.start t.source.state _ = _
    rw [Replicas.start, hchunkEq, hbuilt, Chunk.start_natCast hchunk, Nat.mul_mod_left, Nat.sub_zero]
  have hnext : t.stream.next ≤ (chunks * options.maxChunk : Nat) := by
    obtain ⟨-, -, rfl⟩ := Stream.eq_of_ofOptions? hstream
    rw [hsame]
    exact Int.natCast_nonneg _
  have hposition : (t.jumped (chunks * options.maxChunk : Nat)).stream.position =
      (chunks * options.maxChunk : Nat) := by
    show ((chunks * options.maxChunk : Nat) : Int) - ((0 : Nat) - (0 : Nat) : Int) = _
    omega
  have hseek := Operation.after_seek_start hnext hstart
  refine ⟨t.jumped (chunks * options.maxChunk : Nat), hseek ▸ .perform _ ht (by rintro ⟨⟩),
    ⟨Nat.le_refl 0, ?_⟩, hposition, congrArg (fun r => r.sums.bytes) hget⟩
  rw [hposition]
  show ((t.source.state.get t.source.state.current).data.size : Int) ≤ _
  rw [hget]
  exact Int.ofNat_le.mpr hsize

/-- The end of the data is told where the data of the replica read now has ended, wherever that is,
whatever its sidecar holds and however the storages were changed before. As long as they aren't
changed, it is never told before the end of the checksums exactly if no sidecar is longer than its
data needs. -/
theorem end_told_by_data {checksum : Option Algorithm} {options : Options}
    {list : List (Option Storage × Option Storage)} {replicas : Replicas} {stream : Stream}
    (hreplicas : Replicas.ofList? list options.maxChunk = .ok replicas)
    (hstream : Stream.ofOptions? checksum options = .ok stream)
    (hchunk : options.maxChunk < Word.half) (hverify : stream.needsChecksum) :
    (∀ t, Session.Reaches Replicas.source.recorded (· ≠ .setVerify false) Recorded.Restocked
        { stream, source := { state := replicas } } t →
      t.stream.needsChecksum ∧ t.EndsWith Session.Ended ∧
        (t.Ended →
          (∃ u, Operation.readByte.perform Replicas.source.recorded t = .ok (.byte none) u ∧
            Session.InRange.Stayed t u) ∧
          ∀ buffer offset size, 0 < size → offset + size ≤ buffer.length →
            ∃ u, (Operation.read buffer offset size).perform Replicas.source.recorded t =
              .ok (.count (-1)) u ∧ Session.InRange.Stayed t u)) ∧
      ((∀ t, Session.Reaches Replicas.source.recorded (· ≠ .setVerify false) (fun _ _ => False)
          { stream, source := { state := replicas } } t →
        t.EndsWith (Session.Complete options.maxChunk)) ↔ replicas.Trim options.maxChunk) := by
  have hnew := Session.Verifying.of_new hreplicas hstream hchunk hverify
  have horder : replicas.InOrder := by
    obtain ⟨most, reach, h⟩ := hnew.inRange
    exact h.matched.inOrder
  refine ⟨fun t ht => ?told, fun htold replica hreplica => ?long, fun htrim t ht => ?trim⟩
  case told =>
    obtain ⟨⟨most, reach, h⟩, hneeds⟩ := ht.keeps hnew
      (fun _ hoperation => Session.Verifying.keeps hoperation) (fun _ _ hs hx => hs.restocked hx)
    exact ⟨hneeds, h.endsWith_ended, fun hend => ⟨h.readByte_of_ended hend,
      fun _ _ _ hsize hroom => h.read_of_ended hend hsize hroom⟩⟩
  case long =>
    obtain ⟨i, hi, rfl⟩ := List.getElem_of_mem hreplica
    obtain ⟨-, -, hpos, -⟩ := Replicas.eq_of_ofList? hreplicas
    obtain ⟨t, ht, hend, hposition, hsidecar⟩ :=
      Session.Reaches.exists_ended hreplicas hstream hchunk hi
    obtain ⟨⟨most, reach, h⟩, -⟩ := ht.keeps hnew
      (fun _ hoperation => Session.Verifying.keeps hoperation) (fun _ _ _ hx => hx.elim)
    obtain ⟨u, hu, hstayed⟩ := h.readByte_of_ended hend
    have hcomplete := (htold t ht).byte u hu
    rw [Session.Complete, hstayed.position, hposition, hstayed.reread.sidecar, hsidecar,
      Int.toNat_natCast] at hcomplete
    have hround : ∀ chunks : Nat,
        (chunks * options.maxChunk + options.maxChunk - 1) / options.maxChunk = chunks := fun n => by
      rw [Nat.add_sub_assoc hpos, Nat.mul_comm, Nat.mul_add_div hpos, Nat.div_eq_of_lt (by omega),
        Nat.add_zero]
    rw [hround] at hcomplete
    exact hcomplete
  case trim =>
    obtain ⟨⟨most, reach, h⟩, -⟩ := ht.keeps hnew
      (fun _ hoperation => Session.Verifying.keeps hoperation) (fun _ _ _ hx => hx.elim)
    refine h.endsWith_ended.mono fun operation hoperation hend => hend.complete ?_
    obtain ⟨verify, hkept⟩ := (Session.Reaches.perform operation ht hoperation).kept
      Replicas.respects_moved.recorded (fun _ _ hfalse => hfalse.elim)
      (Stream.ready_of_ofOptions? hstream)
    have hmoved : replicas.Moved _ := hkept.source
    have hcurrent := (hmoved.inOrder horder).current_lt
    rw [hmoved.length] at hcurrent
    rw [Replicas.sidecar, Replicas.size_eq_length, Replicas.bytes, hmoved.data, hmoved.sums,
      Replicas.get_eq_getElem hcurrent]
    exact htrim _ (List.getElem_mem hcurrent)

/-- A replica of two chunks that lost the second one tells the end of the data after the first. -/
theorem end_told_after_lost_chunk :
    ∃ replicas stream,
      Replicas.ofList?
        (([⟨{ bytes := [1, 2] }, { bytes := Sidecar.ofBytes .crc32 2 [1, 2, 3, 4] }⟩] :
          List Replica).map Replica.storages) 2 = .ok replicas ∧
      Stream.ofOptions? (some .crc32) { maxChunk := 2 } = .ok stream ∧ stream.needsChecksum ∧
      ∃ t u, t = (Operation.seek 2).after Replicas.source.recorded
          { stream, source := { state := replicas } } ∧ t.stream.position = 2 ∧
        Operation.readByte.perform Replicas.source.recorded t = .ok (.byte none) u ∧
        Session.InRange.Stayed t u := by
  have hreplicas : Replicas.ofList?
      (([⟨{ bytes := [1, 2] }, { bytes := Sidecar.ofBytes .crc32 2 [1, 2, 3, 4] }⟩] :
        List Replica).map Replica.storages) 2 = .ok _ := rfl
  have hstream : Stream.ofOptions? (some .crc32) { maxChunk := 2 } = .ok _ := rfl
  refine ⟨_, _, hreplicas, hstream, rfl, ?_⟩
  generalize ht : (Operation.seek 2).after (Replicas.source : Source Replicas).recorded _ = t
  have hend : t.stream.position = 2 ∧ t.stream.filled ≤ t.stream.cursor ∧
      (t.source.state.size : Int) ≤ t.stream.position := by
    rw [← ht]
    decide +kernel
  obtain ⟨hposition, hused, hsize⟩ := hend
  obtain ⟨u, hu, hstayed⟩ := ((end_told_by_data hreplicas hstream (by decide) rfl).1 t
    (ht ▸ .perform (.seek 2) .refl nofun)).2.2 ⟨hused, hsize⟩ |>.1
  exact ⟨t, u, rfl, hposition, hu, hstayed⟩

/-- Such a replica gives two of four bytes, although its sidecar has the checksum of the others. -/
theorem short_read_of_lost_chunk :
    ∃ replicas stream,
      Replicas.ofList?
        (([⟨{ bytes := [1, 2] }, { bytes := Sidecar.ofBytes .crc32 2 [1, 2, 3, 4] }⟩] :
          List Replica).map Replica.storages) 2 = .ok replicas ∧
      Stream.ofOptions? (some .crc32) { maxChunk := 2 } = .ok stream ∧ stream.needsChecksum ∧
      Ends ((Operation.read (Bytes.zeros 4) 0 4).perform Replicas.source.recorded)
        { stream, source := { state := replicas } }
        (fun outcome t => outcome = .count 2 ∧ t.stream.position = 2 ∧
          t.source.state.sidecar.length = 8 ∧ ¬ t.Complete 2)
        (fun _ _ => False) :=
  ⟨_, _, rfl, rfl, rfl, by decide +kernel⟩

end ChunkGuard
