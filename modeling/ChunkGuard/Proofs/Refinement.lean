import ChunkGuard.Proofs.Initial
import ChunkGuard.Proofs.Reading

/-!
# A stream on undamaged replicas is a cursor

`Session.Shows.ends_perform` says of every operation that it gives what the cursor gives and shows
the cursor that comes of it. What a caller sees of a run (`sights`) is therefore what the cursor
shows, in whatever way the operations are mixed (`sights_eq_sights_cursor`).
-/

namespace ChunkGuard

/-- What a caller sees of an operation: how it ended, the buffer afterwards, and the position. -/
structure Sight where
  outcome : Except StreamError Outcome
  lent : Bytes
  position : Int

/-- What a caller sees of operations in a row. -/
def sights {τ : Type} (perform : Operation → EStateM StreamError τ Outcome) (lent : τ → Bytes)
    (position : τ → Int) : τ → List Operation → List Sight
  | _, [] => []
  | s, operation :: rest =>
    match perform operation s with
    | .ok outcome t => ⟨.ok outcome, lent t, position t⟩ :: sights perform lent position t rest
    | .error e t => ⟨.error e, lent t, position t⟩ :: sights perform lent position t rest

/-- What a caller sees of operations on a stream. -/
def Session.sights {σ : Type} (source : Source σ) : Session σ → List Operation → List Sight :=
  ChunkGuard.sights (Operation.perform source) Session.lent fun s => s.stream.position

/-- What a caller sees of operations on a cursor. -/
def Cursor.sights : Cursor → List Operation → List Sight :=
  ChunkGuard.sights Cursor.perform Cursor.lent fun c => c.position

/-- The operation doesn't turn verification on or off, and reads at no negative position. -/
def Operation.Plain : Operation → Prop
  | .setVerify _ => False
  | .readAt position _ _ _ => 0 ≤ position
  | .readFullyAt position _ _ _ => 0 ≤ position
  | _ => True

namespace Session.Shows

variable {a : Algorithm} {c : Cursor} {s : Session Replicas}

/-- However the cursor's operation ends, the stream's ends in the same way and shows the cursor
that is left. -/
def Follows (a : Algorithm) (operation : Operation) (c : Cursor) (s : Session Replicas) : Prop :=
  Ends (Cursor.perform operation) c
    (fun x c' => Ends (operation.perform Replicas.source) s (fun y t => y = x ∧ t.Shows a c')
      (fun _ _ => False))
    (fun e c' => Ends (operation.perform Replicas.source) s (fun _ _ => False)
      (fun e' t => e' = e ∧ t.Shows a c'))

/-- The next byte is the one at the cursor. -/
theorem follows_readByte (h : s.Shows a c) : Follows a .readByte c s := by
  simp only [Follows, Cursor.perform, Operation.perform, ends_bind, ends_get, ends_ite, ends_set,
    ends_pure]
  refine ⟨fun hsome => ?_, fun hnone => ?_⟩
  · refine h.ends_readByte.mono (fun byte t ht => ?_) (fun _ _ hfalse => hfalse)
    obtain ⟨rfl, ht⟩ := ht
    rw [if_pos hsome] at ht
    exact ⟨rfl, ht⟩
  · refine h.ends_readByte.mono (fun byte t ht => ?_) (fun _ _ hfalse => hfalse)
    obtain ⟨rfl, ht⟩ := ht
    rw [if_neg hnone] at ht
    exact ⟨rfl, ht⟩

/-- A seek leaves the stream at the cursor's place. -/
theorem follows_seek (h : s.Shows a c) (position : Int) : Follows a (.seek position) c s := by
  simp only [Follows, Cursor.perform, Operation.perform, ends_bind, ends_ite, ends_modify,
    ends_pure]
  refine ⟨fun hpos => ?_, fun hneg => ?_⟩
  · obtain ⟨p, rfl⟩ : ∃ p : Nat, position = p := ⟨position.toNat, by omega⟩
    refine (h.ends_seek p).mono (fun _ t ht => ?_)
      (fun _ _ hfalse => hfalse)
    exact ⟨trivial, ht⟩
  · rw [Stream.ends_seek, Stream.seekNested, Stream.ends_seekWith]
    exact ⟨fun _ => ⟨trivial, h⟩, fun hpos => absurd (Int.lt_of_not_ge hneg) hpos⟩

/-- A skip leaves the stream at the cursor's place. -/
theorem follows_skip (h : s.Shows a c) (count : Int) : Follows a (.skip count) c s := by
  simp only [Follows, Cursor.perform, Operation.perform, Stream.skip, ends_bind, ends_ite,
    ends_modify, ends_pure, ends_getStream]
  refine ⟨fun hnone => ⟨fun _ => ⟨trivial, h⟩, fun hsome => absurd hnone hsome⟩,
    fun hsome => ⟨fun hnone => absurd hnone hsome, fun _ => ?_⟩⟩
  have htarget : (if Word.maxSigned - s.stream.position < count then Word.maxSigned
      else s.stream.position + count) =
        ((min ((c.position : Int) + count) Word.maxSigned).toNat : Int) := by
    have hmax : 0 < Word.maxSigned := by decide
    rw [h.position_eq]
    split <;> omega
  rw [htarget]
  refine (h.ends_seek _).mono (fun _ t ht => ?_)
    (fun _ _ hfalse => hfalse)
  exact ⟨trivial, ht⟩

/-- Another copy shows the same bytes. -/
theorem follows_switch (h : s.Shows a c) (position : Int) : Follows a (.switch position) c s := by
  simp only [Follows, Cursor.perform, Operation.perform, ends_bind, ends_get, ends_set,
    ends_pure, ends_switch]
  have hcopies := h.copies
  have hview := h.view
  have hreplicas := h.replicas.switch position
  have hswitched : (s.source.switch position).1.1 = decide (c.copies ≠ 0) ∧
      c.copies - 1 + 1 + (s.source.switch position).2.current = s.source.list.length ∧
      (s.source.switch position).2.list = s.source.list := by
    by_cases hnext : s.source.current + 1 < s.source.list.length
    · rw [Replicas.switch_next h.replicas.inOrder hnext]
      refine ⟨(decide_eq_true (by omega)).symm, ?_, rfl⟩
      show c.copies - 1 + 1 + (s.source.current + 1) = _
      omega
    · have hcurrent := h.replicas.inOrder.current_lt
      rw [Replicas.switch_last h.replicas.inOrder (by omega)]
      refine ⟨(decide_eq_false (by omega)).symm, ?_, rfl⟩
      show c.copies - 1 + 1 + s.source.current = _
      omega
  -- A change of replicas uses up one of the cursor's copies, as long as there is one.
  obtain ⟨hfound, hleft, hlist⟩ := hswitched
  refine ⟨congrArg Outcome.flag hfound, h.fits, hreplicas, ?_, h.lent,
    ⟨hview.cursor_le, hview.cursor_le_position, hview.next_eq, hview.inside, hview.window,
      hview.aligned⟩, h.settled⟩
  show c.copies - 1 + 1 + (s.source.switch position).2.current =
    (s.source.switch position).2.list.length
  rw [hlist]
  exact hleft

/-- A read gives the bytes from the cursor on. -/
theorem follows_read (h : s.Shows a c) (buffer : Bytes) (offset size : Nat) :
    Follows a (.read buffer offset size) c s := by
  simp only [Follows, Cursor.perform, Cursor.lend, Cursor.copy, Operation.perform, ends_bind,
    ends_get, ends_set, ends_ite, ends_throw, ends_modify, ends_pure, Operation.ends_lend]
  have hlent := h.lending buffer
  refine ⟨fun houtside => ?_, fun hrange => ?_⟩
  · refine (hlent.ends_read_outside houtside).mono (fun _ _ hfalse => hfalse) (fun e t ht => ?_)
    obtain ⟨rfl, rfl⟩ := ht
    exact ⟨rfl, hlent⟩
  · refine (hlent.ends_read hrange).mono (fun count t ht => ?_) (fun _ _ hfalse => hfalse)
    obtain ⟨rfl, ht⟩ := ht
    rw [Cursor.taken_left] at ht
    refine ⟨?_, ht⟩
    rw [Cursor.answer, Bytes.length_slice]
    rfl

/-- A complete read gives the bytes from the cursor on, or ends too early as the cursor's does. -/
theorem follows_readFully (h : s.Shows a c) (buffer : Bytes) (offset size : Nat) :
    Follows a (.readFully buffer offset size) c s := by
  simp only [Follows, Cursor.perform, Cursor.lend, Cursor.copy, Cursor.complete,
    Operation.perform, ends_bind, ends_get, ends_set, ends_ite, ends_throw, ends_modify,
    ends_pure, Operation.ends_lend]
  have hlent := h.lending buffer
  refine ⟨fun hzero => ?_, fun hsome => ⟨fun houtside => ?_, fun hrange => ?_⟩⟩
  · subst hzero
    exact ⟨trivial, hlent⟩
  · refine (Seekable.ends_readParts_refused hsome (hlent.ends_read_outside houtside)).mono
      (fun _ _ hfalse => hfalse) (fun e t ht => ?_)
    obtain ⟨rfl, rfl⟩ := ht
    exact ⟨rfl, hlent⟩
  · have hlength : (Bytes.slice c.position size c.data).length =
        min size (c.data.length - c.position) := Bytes.length_slice _ _ _
    refine ⟨fun hshort => ?_, fun hfull => ?_⟩
    · refine (hlent.ends_readFully hrange).mono (fun _ t ht => ?_) (fun e t ht => ?_)
      · have hfull : size ≤ c.data.length - c.position := ht.1
        omega
      · obtain ⟨rfl, -, ht⟩ := ht
        rw [Cursor.taken_left] at ht
        exact ⟨rfl, ht⟩
    · refine (hlent.ends_readFully hrange).mono (fun _ t ht => ?_) (fun e t ht => ?_)
      · obtain ⟨-, ht⟩ := ht
        rw [Cursor.taken_left] at ht
        exact ⟨trivial, ht⟩
      · have hshort : c.data.length - c.position < size := ht.2.1
        omega

/-- A positioned read gives the bytes there and goes back. -/
theorem follows_readAt (h : s.Shows a c) {position : Int} (hposition : 0 ≤ position)
    (buffer : Bytes) (offset size : Nat) : Follows a (.readAt position buffer offset size) c s := by
  obtain ⟨p, rfl⟩ : ∃ p : Nat, position = p := ⟨position.toNat, by omega⟩
  simp only [Follows, Cursor.perform, Cursor.lend, Cursor.copy, Cursor.target, Operation.perform,
    ends_bind, ends_get, ends_set, ends_ite, ends_throw, ends_modify, ends_pure,
    Operation.ends_lend]
  rw [if_neg (by omega), Int.toNat_natCast]
  have hlent := h.lending buffer
  refine ⟨fun houtside => ?_, fun hrange => ?_⟩
  · simp only [Seekable.readAt, ends_bind, ends_get, ends_ite, ends_throw]
    exact ⟨fun _ => ⟨trivial, hlent⟩, fun hrange => absurd houtside hrange⟩
  · refine (hlent.ends_readAt p hrange).mono (fun count t ht => ?_) (fun _ _ hfalse => hfalse)
    obtain ⟨rfl, ht⟩ := ht
    refine ⟨?_, ht⟩
    rw [Cursor.answer, Bytes.length_slice]

/-- A complete positioned read gives the bytes there and goes back. -/
theorem follows_readFullyAt (h : s.Shows a c) {position : Int} (hposition : 0 ≤ position)
    (buffer : Bytes) (offset size : Nat) :
    Follows a (.readFullyAt position buffer offset size) c s := by
  obtain ⟨p, rfl⟩ : ∃ p : Nat, position = p := ⟨position.toNat, by omega⟩
  simp only [Follows, Cursor.perform, Cursor.lend, Cursor.copy, Cursor.complete, Cursor.target,
    Operation.perform, ends_bind, ends_get, ends_set, ends_ite, ends_throw, ends_modify,
    ends_pure, Operation.ends_lend]
  rw [if_neg (by omega), Int.toNat_natCast]
  have hlent := h.lending buffer
  refine ⟨fun hzero => ?_, fun hsome => ⟨fun houtside => ?_, fun hrange => ?_⟩⟩
  · subst hzero
    exact ⟨trivial, hlent⟩
  · have hrefused : Ends ((Stream.seekable Replicas.source).readAt ((p : Int) + (0 : Nat)) offset
        size) { s with lent := buffer } (fun _ _ => False)
        (fun e t => e = .outsideBuffer ∧ t.Shows a { c with lent := buffer }) := by
      simp only [Seekable.readAt, ends_bind, ends_get, ends_ite, ends_throw]
      exact ⟨fun _ => ⟨trivial, hlent⟩, fun hrange => absurd houtside hrange⟩
    exact Seekable.ends_readParts_refused hsome hrefused
  · have hlength : (Bytes.slice p size c.data).length = min size (c.data.length - p) :=
      Bytes.length_slice _ _ _
    refine ⟨fun hshort => ?_, fun hfull => ?_⟩
    · refine (hlent.ends_readFullyAt hrange).mono (fun _ t ht => ?_) (fun e t ht => ?_)
      · have hfull : size ≤ c.data.length - p := ht.1
        omega
      · obtain ⟨rfl, -, ht⟩ := ht
        exact ⟨rfl, ht⟩
    · refine (hlent.ends_readFullyAt hrange).mono (fun _ t ht => ?_) (fun e t ht => ?_)
      · exact ⟨trivial, ht.2⟩
      · have hshort : c.data.length - p < size := ht.2.1
        omega

/-- Every operation ends as the cursor's does, and leaves the stream where it leaves the cursor. -/
theorem follows (h : s.Shows a c) {operation : Operation} (hplain : operation.Plain) :
    Follows a operation c s := by
  cases operation with
  | readByte => exact h.follows_readByte
  | read buffer offset size => exact h.follows_read buffer offset size
  | readFully buffer offset size => exact h.follows_readFully buffer offset size
  | readAt position buffer offset size => exact h.follows_readAt hplain buffer offset size
  | readFullyAt position buffer offset size => exact h.follows_readFullyAt hplain buffer offset size
  | seek position => exact h.follows_seek position
  | skip count => exact h.follows_skip count
  | switch position => exact h.follows_switch position
  | setVerify verify => exact hplain.elim
  | mark limit => exact ⟨rfl, h⟩
  | reset => exact ⟨rfl, h⟩

/-- A caller sees the same of a run on the stream as of one on the cursor. -/
theorem sights_eq (h : s.Shows a c) {operations : List Operation}
    (hplain : ∀ operation ∈ operations, operation.Plain) :
    s.sights Replicas.source operations = c.sights operations := by
  induction operations generalizing c s with
  | nil => rfl
  | cons operation rest ih =>
      have hfollows := h.follows (hplain operation (List.mem_cons_self ..))
      have hrest := fun operation hmem => hplain operation (List.mem_cons_of_mem _ hmem)
      simp only [Session.sights, Cursor.sights, ChunkGuard.sights] at ih ⊢
      cases hcursor : Cursor.perform operation c with
      | ok x c' =>
          obtain ⟨y, t, hstream, rfl, ht⟩ := (hfollows.ok hcursor).exists_ok
          rw [hstream]
          simp only [ht.lent, ht.position_eq, ih ht hrest]
      | error e c' =>
          obtain ⟨e', t, hstream, rfl, ht⟩ := (hfollows.error hcursor).exists_error
          rw [hstream]
          simp only [ht.lent, ht.position_eq, ih ht hrest]

end Session.Shows

/-! ## Streams from the start -/

/-- The replica holds the data and its sidecar. -/
structure Replica.Holds (a : Algorithm) (chunk : Nat) (data : Bytes) (r : Replica) : Prop where
  data_eq : r.data.bytes = data
  sums_eq : r.sums.bytes = Sidecar.ofBytes a chunk data

/-- The replica holds the data and the sidecar that was written for it, wherever and with whatever
checksum it was written. -/
structure Replica.Written (a : Algorithm) (chunk : Nat) (data : Bytes) (r : Replica) : Prop where
  data_eq : r.data.bytes = data
  written : ∃ before after : Sidecar.Desk, before.data.bytes = data ∧
    before.checksum.algorithm = a ∧ Sidecar.write chunk before = .ok () after ∧
    r.sums.bytes = after.target.bytes

theorem Replica.holds_ofBytes (a : Algorithm) (chunk : Nat) (data : Bytes) :
    (Replica.ofBytes a chunk data).Holds a chunk data := ⟨rfl, rfl⟩

section Written

variable {a : Algorithm} {chunk : Nat} {data : Bytes} (hchunk : 0 < chunk)
  (hhalf : chunk < Word.half) (hsize : data.length + chunk ≤ Word.count)
  (hsums : sumWidth * Chunk.count data.length chunk < Word.count)
include hchunk hhalf hsize hsums

/-- What was written for some data is its sidecar. -/
theorem Replica.Written.holds {r : Replica} (h : r.Written a chunk data) : r.Holds a chunk data := by
  obtain ⟨before, after, rfl, rfl, hwrite, hbytes⟩ := h.written
  rw [Sidecar.write_eq_ok hchunk hsize hsums hhalf] at hwrite
  cases hwrite
  exact ⟨h.data_eq, hbytes⟩

theorem Replica.written_ofBytes : (Replica.ofBytes a chunk data).Written a chunk data :=
  ⟨rfl, ⟨{ bytes := data }, { bytes := [] }, .ofAlgorithm a⟩, _, rfl, rfl,
    Sidecar.write_eq_ok hchunk hsize hsums hhalf, rfl⟩

end Written

/-- A stream on replicas that were just built shows a cursor at the start of the data, as long as
sizes are signed words. -/
theorem Session.Shows.of_built {a : Algorithm} {chunk : Nat} {data : Bytes}
    {checksum : Option Algorithm} {options : Options} {list : List Replica} {replicas : Replicas}
    {stream : Stream} (hdata : data.length < Word.half) (hchunk : chunk < Word.half)
    (hlist : ∀ r ∈ list, r.Holds a chunk data)
    (hreplicas : Replicas.ofList? (list.map Replica.storages) chunk = .ok replicas)
    (hstream : Stream.ofOptions? checksum options = .ok stream)
    (hverify : stream.needsChecksum → options.maxChunk = chunk ∧ checksum = some a) :
    Session.Shows a { data, chunk, copies := list.length - 1 }
      { stream, source := replicas } := by
  obtain ⟨hsame, hnonempty, hpos, hbuilt⟩ := Replicas.eq_of_ofList? hreplicas
  obtain ⟨hmaxChunk, hattempts, hs⟩ := Stream.eq_of_ofOptions? hstream
  have hlists : list = replicas.list :=
    (List.map_inj_right fun _ _ => Replica.storages_inj).mp hsame
  have hlist_ne : list ≠ [] := fun hnil => hnonempty (congrArg (List.map _) hnil)
  rw [← hlists] at hbuilt
  subst hbuilt
  have hcount : data.length + chunk ≤ Word.count := by
    have hhalf : Word.half + Word.half = Word.count := rfl
    omega
  have hholds : ∀ i < list.length,
      (Replicas.get { list, chunk } i).Holds a chunk data := by
    intro i hi
    rw [Replicas.get_eq_getElem hi]
    exact hlist _ (List.getElem_mem hi)
  refine ⟨?_, ?_, ?_, rfl, ?_, fun hpast => absurd hpast (Nat.not_lt_zero _)⟩
  · refine ⟨Stream.ready_of_ofOptions? hstream, hs ▸ hmaxChunk, hs ▸ hattempts, fun hneeds => ?_,
      fun hneeds => ?_, fun hneeds => ?_⟩
    · rw [hs]
      exact (hverify hneeds).1
    · obtain ⟨algorithm, hsome, hstored, -⟩ := Stream.checksum_of_ofOptions? hstream hneeds
      rw [(hverify hneeds).2] at hsome
      cases hsome
      exact hstored
    · obtain ⟨algorithm, -, -, hroom⟩ := Stream.checksum_of_ofOptions? hstream hneeds
      exact hroom
  · exact ⟨Replicas.inOrder_of_new hlist_ne, rfl, hpos, ⟨hdata, hchunk⟩, fun i hi => (hholds i hi).data_eq,
      fun i hi => (hholds i hi).sums_eq⟩
  · have hlength := List.length_pos_iff.mpr hlist_ne
    show list.length - 1 + 1 + 0 = list.length
    omega
  · rw [hs]
    exact ⟨Nat.le_refl 0, Nat.le_refl 0, rfl, fun hsome => absurd hsome (Nat.lt_irrefl 0),
      fun i hi => absurd hi (Nat.not_lt_zero i), fun _ => .inl (Nat.zero_mod _)⟩

/-- Data and chunks far below the greatest word have sizes that are signed words. -/
theorem Session.Shows.of_new {a : Algorithm} {chunk : Nat} {data : Bytes}
    {checksum : Option Algorithm} {options : Options} {list : List Replica} {replicas : Replicas}
    {stream : Stream} (hdata : data.length < Word.half / 4) (hchunk : chunk < Word.half / 4)
    (hlist : ∀ r ∈ list, r.Written a chunk data)
    (hreplicas : Replicas.ofList? (list.map Replica.storages) chunk = .ok replicas)
    (hstream : Stream.ofOptions? checksum options = .ok stream)
    (hverify : stream.needsChecksum → options.maxChunk = chunk ∧ checksum = some a) :
    Session.Shows a { data, chunk, copies := list.length - 1 }
      { stream, source := replicas } := by
  obtain ⟨-, -, hpos, -⟩ := Replicas.eq_of_ofList? hreplicas
  have hquarter : Word.half / 4 = 2 ^ 61 ∧ Word.half = 2 ^ 63 ∧ Word.count = 2 ^ 64 := ⟨rfl, rfl, rfl⟩
  have hcount : Chunk.count data.length chunk ≤ data.length :=
    Chunk.count_le (Nat.le_mul_of_pos_right _ hpos)
  have hsums : sumWidth * Chunk.count data.length chunk < Word.count :=
    Nat.lt_of_le_of_lt (Nat.mul_le_mul_left _ hcount) (by simp only [sumWidth]; omega)
  exact .of_built (by omega) (by omega)
    (fun r hr => (hlist r hr).holds hpos (by omega) (by omega) hsums) hreplicas hstream hverify

/-- On replicas that all hold the same data and its sidecar, a stream whose verification isn't
turned on or off is a cursor: in every sequence of operations a caller sees the results, the bytes
and the positions of the cursor. Where the stream verifies, its chunks and its checksum have to be
those of the sidecar. -/
theorem sights_eq_sights_cursor {a : Algorithm} {chunk : Nat} {data : Bytes}
    {checksum : Option Algorithm} {options : Options} {list : List Replica} {replicas : Replicas}
    {stream : Stream} {operations : List Operation} (hdata : data.length < Word.half / 4)
    (hchunk : chunk < Word.half / 4) (hlist : ∀ r ∈ list, r.Written a chunk data)
    (hreplicas : Replicas.ofList? (list.map Replica.storages) chunk = .ok replicas)
    (hstream : Stream.ofOptions? checksum options = .ok stream)
    (hverify : stream.needsChecksum → options.maxChunk = chunk ∧ checksum = some a)
    (hplain : ∀ operation ∈ operations, operation.Plain) :
    Session.sights Replicas.source { stream, source := replicas } operations =
      Cursor.sights { data, chunk, copies := list.length - 1 } operations :=
  (Session.Shows.of_new hdata hchunk hlist hreplicas hstream hverify).sights_eq hplain

/-- Five bytes in chunks of two on two replicas, read and sought in, also past their end. -/
theorem sights_five_bytes :
    ∃ replicas stream,
      Replicas.ofList?
        ((List.replicate 2 (Replica.ofBytes .crc32 2 [1, 2, 3, 4, 5])).map Replica.storages) 2 =
        .ok replicas ∧
      Stream.ofOptions? (some .crc32) { maxChunk := 2 } = .ok stream ∧ stream.needsChecksum ∧
      Session.sights Replicas.source { stream, source := replicas }
          [.readByte, .readAt 7 (Bytes.zeros 3) 0 3, .switch 0, .seek 4,
            .read (Bytes.zeros 4) 1 3] =
        Cursor.sights { data := [1, 2, 3, 4, 5], chunk := 2, copies := 1 }
          [.readByte, .readAt 7 (Bytes.zeros 3) 0 3, .switch 0, .seek 4,
            .read (Bytes.zeros 4) 1 3] := by
  have hwritten : ∀ r ∈ List.replicate 2 (Replica.ofBytes .crc32 2 [1, 2, 3, 4, 5]),
      r.Written .crc32 2 [1, 2, 3, 4, 5] := by
    intro r hr
    rw [List.eq_of_mem_replicate hr]
    exact Replica.written_ofBytes (by decide) (by decide) (by decide) (by decide)
  have hplain : ∀ operation ∈ ([.readByte, .readAt 7 (Bytes.zeros 3) 0 3, .switch 0, .seek 4,
      .read (Bytes.zeros 4) 1 3] : List Operation), operation.Plain := by
    simp [Operation.Plain]
  have hreplicas : Replicas.ofList?
      ((List.replicate 2 (Replica.ofBytes .crc32 2 [1, 2, 3, 4, 5])).map Replica.storages) 2 =
      .ok _ := rfl
  have hstream : Stream.ofOptions? (some .crc32) { maxChunk := 2 } = .ok _ := rfl
  exact ⟨_, _, hreplicas, hstream, rfl, sights_eq_sights_cursor (by decide) (by decide) hwritten
    hreplicas hstream (fun _ => ⟨rfl, rfl⟩) hplain⟩

end ChunkGuard
