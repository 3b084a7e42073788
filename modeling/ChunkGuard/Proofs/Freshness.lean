import ChunkGuard.Proofs.Coupling
import ChunkGuard.Proofs.Initial
import ChunkGuard.Proofs.Runs
import ChunkGuard.Proofs.Verdict
import ChunkGuard.Source.Script

/-!
# Comparisons begin with a fresh checksum

A stream that was built is primed: its running checksum is in its reset state. Operations keep it so,
and with any comparison that is right in primed sessions they do what they do with `Stream.compare`
(`Operation.performBy_eq`), so no comparison is ever begun in another one. In a primed session a
comparison decides exactly which segment is the first to differ from its stored checksum
(`Session.Primed.compare_decides`).
-/

namespace ChunkGuard

open Session

variable {σ : Type}

/-! ## Streams that were built -/

/-- The running checksum of the session's stream is in its reset state, and the stream is otherwise fit
for comparisons as it was built to be. -/
structure Session.Primed {σ : Type} (checksum : Option Algorithm) (o : Options) (s : Session σ) :
    Prop where
  fresh : s.stream.checksum = checksum.map Checksum.ofAlgorithm
  maxChunk : s.stream.maxChunk = o.maxChunk
  room : checksum.isSome → s.stream.sums.length = chunksPerRead * sumWidth

namespace Session

variable {checksum : Option Algorithm} {o : Options} {s : Session σ}

/-- A primed stream is ready. -/
theorem Primed.ready (h : s.Primed checksum o) : s.stream.Ready := by
  rw [Stream.Ready, h.fresh]
  rintro c hc
  obtain ⟨a, -, rfl⟩ := Option.map_eq_some_iff.mp hc
  rfl

/-- A stream is primed when it is made. -/
theorem primed_of_ofOptions? {stream : Stream} (h : Stream.ofOptions? checksum o = .ok stream) (x : σ) :
    Primed checksum o { stream, source := x } := by
  obtain ⟨-, -, rfl⟩ := Stream.eq_of_ofOptions? h
  exact ⟨rfl, rfl, fun hsome => by simp [hsome, Bytes.zeros]⟩

end Session

/-! ## Operations with another comparison -/

section Comparing

variable {checksum : Option Algorithm} {o : Options} {source : Source σ}
  {comparing : Bytes → StreamM σ (Option Mismatch)}

/-- Other comparisons are done alike, as long as they begin with a fresh checksum. -/
def Stream.AlikeWhenPrimed (checksum : Option Algorithm) (o : Options)
    (comparing : Bytes → StreamM σ (Option Mismatch)) : Prop :=
  ∀ bytes s, s.Primed checksum o → comparing bytes s = Stream.compare bytes s

/-- The states are the same, and the stream is primed, whatever its source. -/
def Session.PrimedWith (checksum : Option Algorithm) (o : Options) (stream : Stream) (x y : σ) : Prop :=
  x = y ∧ Primed checksum o { stream, source := x }

/-- Sessions paired by this are one and the same, and primed. -/
theorem Session.paired_primedWith {s t : Session σ} :
    Paired (PrimedWith checksum o) s t ↔ s = t ∧ s.Primed checksum o := by
  constructor
  · rintro ⟨_, ⟨rfl, hs⟩, rfl⟩
    exact ⟨rfl, hs.fresh, hs.maxChunk, hs.room⟩
  · rintro ⟨rfl, hs⟩
    exact ⟨s.source, ⟨rfl, hs.fresh, hs.maxChunk, hs.room⟩, rfl⟩

/-- A source answers as it does itself, which doesn't touch the stream. -/
theorem Source.couples_primedWith (checksum : Option Algorithm) (o : Options) (source : Source σ) :
    source.Couples (PrimedWith checksum o) source where
  alike := by
    rintro stream stream' x _ ⟨rfl, hs⟩ h
    exact ⟨rfl, h.checksum.trans hs.fresh, h.maxChunk.trans hs.maxChunk,
      fun hsome => h.room.trans (hs.room hsome)⟩
  reset := by
    rintro stream x _ ⟨rfl, hs⟩
    exact ⟨rfl, hs.ready.map_reset.trans hs.fresh, hs.maxChunk, hs.room⟩
  verifying := by
    rintro stream x _ ⟨rfl, hs⟩ verify
    exact ⟨rfl, hs.fresh, hs.maxChunk, hs.room⟩
  read := by
    rintro stream request x _ ⟨rfl, hs⟩
    have hanswer : ∀ y : σ, PrimedWith checksum o stream y y :=
      fun y => ⟨rfl, hs.fresh, hs.maxChunk, hs.room⟩
    cases hread : source.read request x with
    | ok reply y => exact .of_ok hread ⟨y, rfl, hanswer y⟩
    | error e y => exact .of_error hread ⟨y, rfl, hanswer y⟩
  start := by
    rintro stream x _ ⟨rfl, -⟩
    rfl
  switch := by
    rintro stream x _ ⟨rfl, hs⟩ position
    exact ⟨_, rfl, rfl, hs.fresh, hs.maxChunk, hs.room⟩

/-- In primed sessions the other comparison does what the stream's own does. -/
theorem Stream.coupled_comparing (h : AlikeWhenPrimed checksum o comparing) (bytes : Bytes) :
    Coupled (Paired (PrimedWith checksum o)) (Stream.compare bytes) (comparing bytes) := by
  intro s t hst
  obtain ⟨rfl, hs⟩ := paired_primedWith.mp hst
  rw [h bytes s hs]
  have hready : Ends (Stream.compare bytes) s (fun _ u => u = s) (fun _ u => u = s) :=
    ends_compare hs.ready (fun _ => rfl) fun _ => rfl
  cases hcompare : Stream.compare bytes s with
  | ok found u => exact .of_ok hcompare ⟨u, rfl, hready.ok hcompare ▸ hst⟩
  | error e u => exact .of_error hcompare ⟨u, rfl, hready.error hcompare ▸ hst⟩

/-- In a primed session operations do the same with another comparison, and leave the session primed. -/
theorem Operation.performBy_eq (h : Stream.AlikeWhenPrimed checksum o comparing) (operation : Operation)
    {s : Session σ} (hs : s.Primed checksum o) :
    operation.performBy comparing source s = operation.perform source s ∧
      Ends (operation.perform source) s (fun _ => Primed checksum o) (fun _ => Primed checksum o) := by
  have hends := @Operation.coupled_perform σ σ inferInstance ⟨comparing⟩ _ _ _
    (source.couples_primedWith checksum o) (Stream.coupled_comparing h) operation s s
    (paired_primedWith.mpr ⟨rfl, hs⟩)
  cases hperform : operation.perform source s with
  | ok outcome t =>
      obtain ⟨u, hu, hpaired⟩ := hends.ok hperform
      obtain ⟨rfl, ht⟩ := paired_primedWith.mp hpaired
      exact ⟨hu, .of_ok hperform ht⟩
  | error e t =>
      obtain ⟨u, hu, hpaired⟩ := hends.error hperform
      obtain ⟨rfl, ht⟩ := paired_primedWith.mp hpaired
      exact ⟨hu, .of_error hperform ht⟩

end Comparing

/-! ## What a comparison decides -/

namespace Chunk

variable {a : Algorithm} {chunk size count i : Nat} {data : Bytes}

/-- Segments one after the other are the bytes before the next one. -/
theorem flatMap_slice (chunk count : Nat) (data : Bytes) :
    ((List.range count).flatMap fun i => Bytes.slice (i * chunk) chunk data) =
      data.take (count * chunk) := by
  induction count with
  | zero => simp
  | succ count ih =>
      rw [List.range_succ, List.flatMap_append, ih, Nat.succ_mul, List.take_add]
      simp [Bytes.slice]

/-- The checksum of a segment of the data, taken from a fresh state. -/
def segmentSum (a : Algorithm) (chunk : Nat) (data : Bytes) (index : Nat) : UInt32 :=
  ((Checksum.ofAlgorithm a).update (Bytes.slice (index * chunk) chunk data)).value

/-- The checksum of a segment is that of the chunk at its place. -/
theorem segmentSum_eq (a : Algorithm) (chunk : Nat) (data : Bytes) (index : Nat) :
    segmentSum a chunk data index = a.sum (Bytes.slice (index * chunk) chunk data) := by
  have hfresh : (Checksum.ofAlgorithm a).IsFresh := rfl
  exact Checksum.value_update_fresh hfresh _

/-- The bytes fall into segments of a chunk each, of which only the last one may be shorter. -/
structure Segmented (chunk count : Nat) (data : Bytes) : Prop where
  covers : ((List.range count).flatMap fun i => Bytes.slice (i * chunk) chunk data) = data
  nonempty : ∀ i < count, Bytes.slice (i * chunk) chunk data ≠ []
  whole : ∀ i, i + 1 < count → (Bytes.slice (i * chunk) chunk data).length = chunk

/-- The chunks of some data are its segments. -/
theorem segmented (h : 0 < chunk) (data : Bytes) :
    Segmented chunk ((data.length + chunk - 1) / chunk) data := by
  refine ⟨?_, fun i hi hnil => ?_, fun i hi => ?_⟩
  · have hall : ¬(data.length + chunk - 1) / chunk * chunk < data.length := fun hlt =>
      Nat.lt_irrefl _ ((lt_div_iff h).mpr hlt)
    rw [flatMap_slice, List.take_of_length_le (Nat.le_of_not_lt hall)]
  · have hi := (lt_div_iff h).mp hi
    have hlength := congrArg List.length hnil
    rw [Bytes.length_slice, List.length_nil] at hlength
    omega
  · have hi := (lt_div_iff h).mp hi
    rw [Bytes.length_slice]
    rw [Nat.succ_mul] at hi
    omega

end Chunk

/-- What a comparison finds is the first segment whose checksum from a fresh state isn't the stored
one, with the position where it starts and both checksums. -/
structure Stream.Decided (a : Algorithm) (chunk count : Nat) (sums data : Bytes) (start : Int)
    (found : Option Mismatch) : Prop where
  eq_none_iff : found = none ↔
    ∀ i < count, Chunk.segmentSum a chunk data i = Stored.loadAt i sums
  eq_some_iff : ∀ mismatch, found = some mismatch ↔
    ∃ i < count, Chunk.segmentSum a chunk data i ≠ Stored.loadAt i sums ∧
      (∀ j < i, Chunk.segmentSum a chunk data j = Stored.loadAt j sums) ∧
      mismatch = ⟨start + (i * chunk : Nat), Stored.loadAt i sums, Chunk.segmentSum a chunk data i⟩

/-- The first chunk that fails is what decides. -/
theorem Chunk.decided_firstFailing (a : Algorithm) (chunk count : Nat) (sums data : Bytes)
    (start : Int) :
    Stream.Decided a chunk count sums data start
      ((firstFailing a chunk sums data 0 count).map (mismatchAt a chunk sums data start)) where
  eq_none_iff := by
    rw [Option.map_eq_none_iff, firstFailing_eq_none]
    simp only [Passes, segmentSum_eq]
  eq_some_iff mismatch := by
    simp only [Option.map_eq_some_iff, firstFailing_eq_some, Passes, mismatchAt, segmentSum_eq]
    constructor
    · rintro ⟨i, ⟨hi, hfails, hbefore⟩, rfl⟩
      exact ⟨i, hi, hfails, hbefore, rfl⟩
    · rintro ⟨i, hi, hfails, hbefore, rfl⟩
      exact ⟨i, ⟨hi, hfails, hbefore⟩, rfl⟩

namespace Session.Primed

variable {a : Algorithm} {checksum : Option Algorithm} {o : Options} {s : Session σ} {bytes : Bytes}

/-- In a primed session that verifies a comparison decides, and leaves the session as it was. -/
theorem compare_decides (hs : s.Primed (some a) o) (hverify : s.stream.verify)
    (hpos : 0 < o.maxChunk) (hchunk : o.maxChunk < Word.half) (hlength : bytes.length < Word.half)
    (hcount : (bytes.length + o.maxChunk - 1) / o.maxChunk ≤ chunksPerRead) :
    ∃ found, Stream.compare bytes s = .ok found s ∧
      Stream.Decided a o.maxChunk ((bytes.length + o.maxChunk - 1) / o.maxChunk) s.stream.sums bytes
        s.stream.next found := by
  have hcount_eq : Chunk.count bytes.length s.stream.maxChunk =
      (bytes.length + o.maxChunk - 1) / o.maxChunk := by
    rw [hs.maxChunk]
    exact Chunk.count_eq (by simp only [Word.half, Word.count] at hchunk hlength ⊢; omega)
  have hneeds : s.stream.needsChecksum = true := by
    rw [Stream.needsChecksum, hverify, hs.fresh]
    rfl
  have hroom : s.stream.HasSums bytes.length := fun _ => by
    rw [hcount_eq, hs.room rfl]
    exact Nat.mul_le_mul_right _ hcount
  have hends : Ends (Stream.compare bytes) s
      (fun found t => found = s.stream.mismatch? bytes ∧ t = s) (fun _ _ => False) :=
    Stream.ends_compare hs.ready (fun _ => ⟨rfl, rfl⟩) fun h => h hroom
  obtain ⟨_, _, hcompare, rfl, rfl⟩ := hends.exists_ok
  refine ⟨_, hcompare, ?_⟩
  rw [Stream.mismatch?, if_pos hneeds, hs.fresh, hcount_eq, hs.maxChunk]
  exact Chunk.decided_firstFailing ..

end Session.Primed

/-- Between any operations the running checksum of a stream that was built is in its reset state, and so
it is where any comparison begins: however else comparisons went, operations would be what they are.
A comparison of bytes in no more chunks than one request may ask for decides, segment by segment. -/
theorem compares_from_fresh {checksum : Option Algorithm} {o : Options} {stream : Stream}
    {source : Source σ} {x : σ} {t : Session σ}
    (hstream : Stream.ofOptions? checksum o = .ok stream) (hchunk : o.maxChunk < Word.half)
    (ht : Session.Reaches source (fun _ => True) (fun _ _ => True) { stream, source := x } t) :
    t.Primed checksum o ∧
      (∀ comparing, Stream.AlikeWhenPrimed checksum o comparing → ∀ operation : Operation,
        operation.performBy comparing source t = operation.perform source t) ∧
      ∀ a, checksum = some a → ∀ s : Session σ, s.Primed checksum o → s.stream.verify →
        ∀ bytes : Bytes, bytes.length < Word.half →
          (bytes.length + o.maxChunk - 1) / o.maxChunk ≤ chunksPerRead →
          Chunk.Segmented o.maxChunk ((bytes.length + o.maxChunk - 1) / o.maxChunk) bytes ∧
            ∃ found, Stream.compare bytes s = .ok found s ∧
              Stream.Decided a o.maxChunk ((bytes.length + o.maxChunk - 1) / o.maxChunk)
                s.stream.sums bytes s.stream.next found := by
  have hpos := (Stream.eq_of_ofOptions? hstream).1
  have hprimed : t.Primed checksum o := by
    refine ht.keeps (primed_of_ofOptions? hstream x) (fun operation _ s hs => ?_) (fun s y hs _ => ?_)
    · have hsame : Stream.AlikeWhenPrimed (σ := σ) checksum o Stream.compare := fun _ _ _ => rfl
      exact (Operation.performBy_eq hsame operation hs).2
    · exact ⟨hs.fresh, hs.maxChunk, hs.room⟩
  refine ⟨hprimed, fun comparing hsame operation => ?_, ?_⟩
  · exact (Operation.performBy_eq hsame operation hprimed).1
  · rintro a rfl s hs hverify bytes hlength hcount
    exact ⟨Chunk.segmented hpos bytes, hs.compare_decides hverify hpos hchunk hlength hcount⟩

/-- A chunk that differs from its checksum makes an operation fail, and a comparison after that begins
anew. -/
theorem compares_from_fresh_after_damage :
    let script : Script := { align := 2, replies := [.gives [1, 2] [0, 0, 0, 0]], switches := [] }
    ∃ stream t, Stream.ofOptions? (some .crc32) { maxChunk := 2 } = .ok stream ∧
      Operation.readByte.after Script.source { stream, source := script } = t ∧
      t.events = [.corrupted "" 0 2 [1, 2]] ∧ t.Primed (some .crc32) { maxChunk := 2 } ∧
      ∃ found, Stream.compare [1, 2, 3] t = .ok found t ∧ found.isSome ∧
        Stream.Decided .crc32 2 2 t.stream.sums [1, 2, 3] t.stream.next found := by
  intro script
  have hstream : Stream.ofOptions? (some .crc32) { maxChunk := 2 } = .ok _ := rfl
  refine ⟨_, _, hstream, rfl, ?_⟩
  obtain ⟨hprimed, -, hcompares⟩ := compares_from_fresh (x := script)
    (t := Operation.readByte.after Script.source _) hstream (by decide)
    (.perform .readByte .refl trivial)
  generalize ht : Operation.readByte.after Script.source _ = t at hprimed hcompares
  have hrun : t.events = [.corrupted "" 0 2 [1, 2]] ∧ t.stream.verify ∧
      Ends (Stream.compare [1, 2, 3]) t (fun found _ => found.isSome) (fun _ _ => False) := by
    rw [← ht]
    decide +kernel
  obtain ⟨hevents, hverify, hfound⟩ := hrun
  obtain ⟨-, found, hcompare, hdecided⟩ :=
    hcompares .crc32 rfl t hprimed hverify [1, 2, 3] (by decide) (by decide)
  exact ⟨hevents, hprimed, found, hcompare, hfound.ok hcompare, hdecided⟩

end ChunkGuard
