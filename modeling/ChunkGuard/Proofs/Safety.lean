import ChunkGuard.Proofs.Range
import Mathlib.Algebra.Group.Nat.Defs

/-!
# Safe arithmetic

On replicas whose data ends early enough, no run of operations makes an internal check fail or a
position run over, wherever it seeks, however far it skips and whatever is stored, changed or cut
off in between (`secure_of_reaches`).
-/

namespace ChunkGuard

open Session

/-! ## Operations in range -/

namespace Session.InRange

variable {checksum : Option Algorithm} {chunk : Nat} {most reach : Int}
  {s : Session (Recorded Replicas)}

theorem ends_seekable_read (h : s.InRange checksum chunk most reach) (offset size : Nat) :
    Ends ((Stream.seekable Replicas.source.recorded).read offset size) s
      (fun count t => t.InRange checksum chunk most reach ∧
        (0 < count → s.stream.position + count ≤ most))
      (Failed checksum chunk most reach) := by
  rw [Stream.ends_seekable_read]
  refine (h.ends_read offset size).mono (fun count t ht => ⟨ht.1.inRange, fun hpos => ?_⟩)
    (fun _ _ ht => ht)
  cases count with
  | none => exact absurd hpos (by decide)
  | some n => exact ht.1.inside (Int.ofNat_lt.mp hpos)

/-- Reading at a position within reach, going back included, stays in range. What was read is inside
of the data. A negative position is none to go to. -/
theorem ends_readAt (h : s.InRange checksum chunk most reach) {position : Int}
    (hreach : position ≤ reach) (offset size : Nat) :
    Ends ((Stream.seekable Replicas.source.recorded).readAt position offset size) s
      (fun count t => t.InRange checksum chunk most reach ∧
        (0 < count → max position 0 + count ≤ most))
      (Failed checksum chunk most reach) := by
  have hsaved : s.stream.position ≤ reach := Int.le_trans h.position_le h.next_le
  have hback : ∀ {t : Session (Recorded Replicas)} {Q : Unit → Session (Recorded Replicas) → Prop},
      t.InRange checksum chunk most reach →
      (∀ u, u.InRange checksum chunk most reach → Q () u) →
      Ends (Stream.seek Replicas.source.recorded s.stream.position) t Q
        (Failed checksum chunk most reach) := fun ht hQ =>
    (ht.ends_seek hsaved).mono (fun _ u hu => hQ u hu.1) (fun _ _ hu => hu)
  simp only [Seekable.readAt, ends_ite, ends_bind, ends_get, ends_pure, ends_throw, ends_tryCatch]
  refine ⟨fun _ => ⟨h, by decide⟩, fun hrange =>
    ⟨fun _ => ⟨h, fun hpos => absurd hpos (Int.lt_irrefl 0)⟩, fun hsome => ?_⟩⟩
  refine (h.ends_seek hreach).mono (fun _ t ht => ?_)
    (fun e t ht => hback ht.1 fun u hu => ⟨hu, ht.2⟩)
  have hread : Ends ((Stream.seekable Replicas.source.recorded).read offset size) t
      (fun count u => u.InRange checksum chunk most reach ∧
        (0 < count → max position 0 + count ≤ most)) (Failed checksum chunk most reach) := by
    obtain ⟨ht, hstay, hgo⟩ := ht
    have hplace : max position 0 ≤ t.stream.position ∨ t.Ended := by
      by_cases hneg : position < 0
      · have hnonneg := h.position_nonneg
        rw [hstay hneg]
        exact .inl (by omega)
      · exact (hgo (Int.not_lt.mp hneg)).imp_left fun hgone => by omega
    obtain hplace | hend := hplace
    · exact (ht.ends_seekable_read offset size).mono
        (fun _ _ hu => ⟨hu.1, fun hpos => Int.le_trans (by omega) (hu.2 hpos)⟩) (fun _ _ hu => hu)
    · rw [Stream.ends_seekable_read]
      refine ((ht.ends_read offset size).and
        (ht.ends_read_of_ended hend (Nat.pos_of_ne_zero hsome))).mono
          (fun count u hu => ⟨hu.1.1.inRange, fun hpos => ?_⟩) (fun _ _ hu => hu.1)
      rw [hu.2.1] at hpos
      exact absurd hpos (by decide)
  exact hread.mono (fun _ u hu => hback hu.1 fun v hv => ⟨hv, hu.2⟩)
    (fun _ u hu => hback hu.1 fun v hv => ⟨hv, hu.2⟩)

end Session.InRange

/-- Reading parts of a range keeps what holds at every number of bytes read before, and ends as its
parts do or at the end of the data. -/
theorem Seekable.ends_readParts_kept {τ : Type} {J : Nat → τ → Prop} {E : StreamError → τ → Prop}
    {part : Nat → Nat → Nat → EStateM StreamError τ Int}
    (hpart : ∀ done offset size t, J done t →
      Ends (part done offset size) t (fun count u => J (done + count.toNat) u) E)
    (hend : ∀ done t, J done t → E .prematureEnd t) (fuel : Nat) {done : Nat} {t : τ}
    (h : J done t) (offset size : Nat) :
    Ends (readParts part fuel done offset size) t (fun _ u => ∃ done, J done u) E := by
  induction fuel generalizing done offset size t with
  | zero => exact ⟨done, h⟩
  | succ fuel ih =>
      simp only [readParts, ends_ite, ends_bind, ends_pure, ends_throw]
      refine ⟨fun _ => ⟨done, h⟩, fun _ => (hpart done offset size t h).mono (fun count u hu => ?_)
        (fun _ _ hu => hu)⟩
      exact ⟨fun _ => hend _ u hu, fun _ => ih hu _ _⟩

/-- The operation goes no further than `reach`. -/
def Operation.Within (reach : Int) : Operation → Prop
  | readAt position .. => position ≤ reach
  | readFullyAt position .. => position ≤ reach
  | seek position => position ≤ reach
  | _ => True

namespace Session.InRange

variable {checksum : Option Algorithm} {chunk : Nat} {most reach : Int}
  {s : Session (Recorded Replicas)}

/-- While a range is read part by part from a position on, what was read is inside of the data. -/
structure Reading (checksum : Option Algorithm) (chunk : Nat) (most reach position : Int)
    (done : Nat) (s : Session (Recorded Replicas)) : Prop where
  inRange : s.InRange checksum chunk most reach
  inside : 0 < done → position + done ≤ most

/-- A part is read within reach and leaves what was read inside of the data. -/
theorem Reading.ends_readAt {position : Int} {done : Nat}
    (h : Reading checksum chunk most reach position done s) (hreach : position ≤ reach)
    (offset size : Nat) :
    Ends ((Stream.seekable Replicas.source.recorded).readAt (position + done) offset size) s
      (fun count t => Reading checksum chunk most reach position (done + count.toNat) t)
      (Failed checksum chunk most reach) := by
  have hmost := h.inRange.most_le
  have hwithin : position + done ≤ reach := by
    have hinside := h.inside
    omega
  refine (h.inRange.ends_readAt hwithin offset size).mono (fun count t ht => ⟨ht.1, fun hpos => ?_⟩)
    (fun _ _ ht => ht)
  have hinside := h.inside
  have hread := ht.2
  omega

/-- Every operation within reach stays in range, and it never fails with an internal error. -/
theorem ends_perform (h : s.InRange checksum chunk most reach) (hmax : Word.maxSigned ≤ reach)
    {operation : Operation} (hoperation : operation.Within reach) :
    Ends (operation.perform Replicas.source.recorded) s
      (fun _ t => t.InRange checksum chunk most reach) (Failed checksum chunk most reach) := by
  cases operation with
  | readByte =>
      simp only [Operation.perform, ends_bind, ends_pure]
      exact h.ends_readByte.mono (fun _ _ ht => ht.1) (fun _ _ ht => ht)
  | read buffer offset size =>
      simp only [Operation.perform, ends_bind, ends_pure, Operation.ends_lend]
      exact ((h.lending buffer).ends_seekable_read offset size).mono (fun _ _ ht => ht.1)
        (fun _ _ ht => ht)
  | readFully buffer offset size =>
      simp only [Operation.perform, ends_bind, ends_pure, Operation.ends_lend]
      refine (Seekable.ends_readParts_kept (J := fun _ t => t.InRange checksum chunk most reach)
        (fun _ offset size t ht => ?_) (fun _ _ ht => ⟨ht, by decide⟩) size (h.lending buffer) _ _).mono
          (fun _ _ ht => ht.choose_spec) (fun _ _ ht => ht)
      exact (ht.ends_seekable_read offset size).mono (fun _ _ hu => hu.1) (fun _ _ hu => hu)
  | readAt position buffer offset size =>
      simp only [Operation.perform, ends_bind, ends_pure, Operation.ends_lend]
      exact ((h.lending buffer).ends_readAt hoperation offset size).mono (fun _ _ ht => ht.1)
        (fun _ _ ht => ht)
  | readFullyAt position buffer offset size =>
      simp only [Operation.perform, ends_bind, ends_pure, Operation.ends_lend]
      have hstart : Reading checksum chunk most reach position 0
          { s with lent := buffer } := ⟨h.lending buffer, fun hpos => absurd hpos (Nat.lt_irrefl 0)⟩
      refine (Seekable.ends_readParts_kept (fun done offset size t ht => ht.ends_readAt hoperation _ _)
        (fun _ _ ht => ⟨ht.inRange, by decide⟩) size hstart _ _).mono (fun _ t ht => ?_)
          (fun _ _ ht => ht)
      obtain ⟨done, ht⟩ := ht
      exact ht.inRange
  | seek position =>
      simp only [Operation.perform, ends_bind, ends_pure]
      exact (h.ends_seek hoperation).mono (fun _ _ ht => ht.1) (fun _ _ ht => ht)
  | skip count =>
      simp only [Operation.perform, Stream.skip, ends_ite, ends_bind, ends_pure, ends_getStream]
      refine ⟨fun _ => h, fun _ => (h.ends_seek ?_).mono (fun _ _ ht => ht.1) (fun _ _ ht => ht)⟩
      split <;> omega
  | switch position =>
      exact h.called (.switch s.source.state position _) (.refl _)
        (Replicas.moved_switch _ position) rfl trivial rfl rfl rfl _ _
  | setVerify verify =>
      have hmatched := h.matched
      exact ⟨⟨hmatched.checksum_eq, hmatched.maxChunk_eq, hmatched.chunk_eq, hmatched.chunk_pos,
        hmatched.chunk_lt, hmatched.room, hmatched.inOrder⟩, h.attempts_pos, h.cursor_le,
        h.filled_le, h.filled_le_chunk, h.most_le, h.size_le, h.inside, h.next_le, h.calls⟩
  | mark limit => exact ⟨h, by decide⟩
  | reset => exact ⟨h, by decide⟩

/-- Whatever is stored now, the stream is in range as long as the data ends by `most`. -/
theorem restocked (h : s.InRange checksum chunk most reach) {x : Recorded Replicas}
    (hx : Recorded.Restocked s.source x)
    (hsize : ∀ i, ((x.state.get i).data.bytes.length : Int) ≤ most) :
    InRange checksum chunk most reach { s with source := x } := by
  have hmatched := h.matched
  exact ⟨⟨hmatched.checksum_eq, hmatched.maxChunk_eq, hx.chunk.trans hmatched.chunk_eq,
    hmatched.chunk_pos, hmatched.chunk_lt, hmatched.room, hx.inOrder hmatched.inOrder⟩,
    h.attempts_pos, h.cursor_le, h.filled_le, h.filled_le_chunk, h.most_le, hsize, h.inside,
    h.next_le, hx.calls ▸ h.calls⟩

/-- A stream that was just built is in range. -/
theorem of_new {options : Options} {list : List (Option Storage × Option Storage)}
    {replicas : Replicas} {stream : Stream}
    (hreplicas : Replicas.ofList? list options.maxChunk = .ok replicas)
    (hstream : Stream.ofOptions? checksum options = .ok stream)
    (hchunk : options.maxChunk < Word.half)
    (hsize : ∀ i, ((replicas.get i).data.bytes.length : Int) ≤ most) (hle : most ≤ reach) :
    InRange checksum options.maxChunk most reach { stream, source := { state := replicas } } := by
  have hmatched : Session.Matched checksum options.maxChunk
      { stream, source := { state := replicas } } :=
    (Backed.of_new (B := fun _ _ _ => True) hreplicas hstream hchunk).matched
  obtain ⟨-, hattempts, rfl⟩ := Stream.eq_of_ofOptions? hstream
  have hnonneg : 0 ≤ most := Int.le_trans (Int.natCast_nonneg _) (hsize 0)
  exact ⟨hmatched, hattempts, Nat.le_refl 0, Int.le_refl 0, Nat.zero_le _, hle, hsize,
    fun hpos => absurd hpos (Nat.lt_irrefl 0), Int.le_trans hnonneg hle,
    fun call hcall => absurd hcall List.not_mem_nil⟩

end Session.InRange

/-! ## Sums that are checked -/

/-- Parts that do the same wherever something holds that all of them keep read the same range. -/
theorem Seekable.readParts_congr {τ : Type} {J : Nat → τ → Prop}
    {part part' : Nat → Nat → Nat → EStateM StreamError τ Int}
    (hsame : ∀ done offset size t, J done t → part done offset size t = part' done offset size t)
    (hpart : ∀ done offset size t, J done t →
      Ends (part done offset size) t (fun count u => J (done + count.toNat) u) (fun _ _ => True))
    (fuel : Nat) {done : Nat} {t : τ} (h : J done t) (offset size : Nat) :
    readParts part fuel done offset size t = readParts part' fuel done offset size t := by
  induction fuel generalizing done offset size t with
  | zero => rfl
  | succ fuel ih =>
      simp only [readParts]
      by_cases hzero : size = 0
      · rw [if_pos hzero, if_pos hzero]
      rw [if_neg hzero, if_neg hzero]
      simp only [bind, EStateM.bind, ← hsame done offset size t h]
      cases hm : part done offset size t with
      | error e u => rfl
      | ok count u =>
          by_cases hend : count ≤ 0
          · simp only [hend, if_true]
            rfl
          · simp only [hend, if_false]
            exact ih ((hpart done offset size t h).ok hm) _ _

/-- Reads a whole range at a position as `Seekable.readFullyAt` does, but fails before a part if the
position to read it at or the one to go back to is no signed word. -/
def Seekable.readFullyAtChecked {τ : Type} (s : Seekable τ) (position : Int) (offset size : Nat) :
    EStateM StreamError τ Unit :=
  readParts (fun done offset size => do
      if ¬ (Word.IsSigned (position + done) ∧ Word.IsSigned (s.position (← get))) then
        throw .expectation
      s.readAt (position + done) offset size) size 0 offset size

/-- The numbers that an operation is given as positions or counts are signed words. -/
def Operation.Signed : Operation → Prop
  | readAt position .. => Word.IsSigned position
  | readFullyAt position .. => Word.IsSigned position
  | seek position => Word.IsSigned position
  | skip count => Word.IsSigned count
  | switch position => Word.IsSigned position
  | _ => True

theorem Operation.Signed.within {operation : Operation} (h : operation.Signed) :
    operation.Within Word.maxSigned := by
  have hmax : ∀ {n : Int}, Word.IsSigned n → n ≤ Word.maxSigned := fun hn => by
    simp only [Word.IsSigned, Word.half, Word.maxSigned] at hn ⊢
    omega
  cases operation <;> first | exact hmax h | trivial

/-- Nothing that is added or subtracted about positions has run over or may do so in what is done
next, the checksums have always had room, and no operation fails an internal check. -/
structure Session.Secure (s : Session (Recorded Replicas)) : Prop where
  nonneg : 0 ≤ s.stream.position
  /-- The position is counted back from where the source is read next. -/
  position_eq : s.stream.position = s.stream.next - s.stream.available
  signed : Word.IsSigned s.stream.next ∧ Word.IsSigned s.stream.position
  /-- Every reply has moved the stream by its length, to a signed word. -/
  advance : ∀ before request data sums,
    .read before request (.ok (.chunk data sums)) ∈ s.source.calls →
      Word.IsSigned request.position ∧ Word.IsSigned (request.position + data.length)
  /-- The checksums of a reply, and those of all of its chunks, fit where they are kept. -/
  room : ∀ before request data sums, ∀ capacity ∈ request.capacity,
    .read before request (.ok (.chunk data sums)) ∈ s.source.calls →
      capacity = s.stream.sums.length ∧ sums.length ≤ s.stream.sums.length ∧
        ∀ index < Chunk.count data.length s.stream.maxChunk,
          (index + 1) * sumWidth ≤ s.stream.sums.length
  /-- A skip compares with the way to the greatest position before it adds. -/
  skip : ∀ count, Word.IsSigned count → 0 < count →
    Word.IsSigned (Word.maxSigned - s.stream.position) ∧
      (count ≤ Word.maxSigned - s.stream.position → Word.IsSigned (s.stream.position + count))
  readFullyAt : ∀ position buffer offset size, Word.IsSigned position →
    (Stream.seekable Replicas.source.recorded).readFullyAtChecked position offset size
        { s with lent := buffer } =
      (Stream.seekable Replicas.source.recorded).readFullyAt position offset size
        { s with lent := buffer }
  perform : ∀ operation : Operation, operation.Signed →
    Ends (operation.perform Replicas.source.recorded) s (fun _ _ => True)
      (fun e _ => e.report.code ≠ .internalExpectationFail)

namespace Session.InRange

variable {checksum : Option Algorithm} {chunk : Nat} {most reach : Int}
  {s : Session (Recorded Replicas)}

/-- Where the greatest signed word is in reach, what is in range is a signed word. -/
theorem isSigned_of_le {n : Int} (hnonneg : 0 ≤ n) (hle : n ≤ Word.maxSigned) :
    Word.IsSigned n := by
  simp only [Word.IsSigned, Word.half, Word.maxSigned] at hle ⊢
  omega

/-- The sums of a positioned complete read don't run over. -/
theorem readFullyAtChecked_eq (h : s.InRange checksum chunk most Word.maxSigned) {position : Int}
    (hposition : Word.IsSigned position) (offset size : Nat) :
    (Stream.seekable Replicas.source.recorded).readFullyAtChecked position offset size s =
      (Stream.seekable Replicas.source.recorded).readFullyAt position offset size s := by
  have hreach : position ≤ Word.maxSigned := by
    simp only [Word.IsSigned, Word.half, Word.maxSigned] at hposition ⊢
    omega
  refine (Seekable.readParts_congr
    (J := Reading checksum chunk most Word.maxSigned position) (fun done offset size t ht => ?_)
    (fun done offset size t ht => (ht.ends_readAt hreach offset size).mono (fun _ _ hu => hu)
      (fun _ _ _ => trivial)) size ⟨h, fun hpos => absurd hpos (Nat.lt_irrefl 0)⟩ offset size).symm
  have hsum : Word.IsSigned (position + done) := by
    have hinside := ht.inside
    have hmost := ht.inRange.most_le
    simp only [Word.IsSigned, Word.half, Word.maxSigned] at hposition hmost ⊢
    omega
  have hsaved : Word.IsSigned t.stream.position :=
    isSigned_of_le ht.inRange.position_nonneg
      (Int.le_trans ht.inRange.position_le ht.inRange.next_le)
  have hguard : ¬ ¬ (Word.IsSigned (position + done) ∧ Word.IsSigned t.stream.position) :=
    not_not_intro ⟨hsum, hsaved⟩
  simp only [bind, EStateM.bind]
  exact (congrFun (if_neg hguard) t).symm

theorem secure (h : s.InRange checksum chunk most Word.maxSigned) : s.Secure where
  nonneg := h.position_nonneg
  position_eq := by
    have hcursor := h.cursor_le
    rw [h.available_eq, Stream.position]
    omega
  signed := ⟨isSigned_of_le h.next_nonneg h.next_le,
    isSigned_of_le h.position_nonneg (Int.le_trans h.position_le h.next_le)⟩
  advance before request data sums hcall := by
    obtain ⟨hnonneg, hreach, -, hcame⟩ := h.calls _ hcall
    have hmost := Int.le_trans (hcame data sums rfl).1 h.most_le
    exact ⟨isSigned_of_le hnonneg hreach, isSigned_of_le (by omega) hmost⟩
  room before request data sums capacity hcapacity hcall := by
    obtain ⟨-, -, hroom, hcame⟩ := h.calls _ hcall
    obtain ⟨hsome, hwidth⟩ := hroom capacity hcapacity
    obtain ⟨hlength, hle⟩ := (hcame data sums rfl).2 capacity hcapacity
    have hsums : capacity = s.stream.sums.length := hwidth.trans (h.matched.room hsome).symm
    refine ⟨hsums, hsums ▸ hle, fun index hindex => ?_⟩
    rw [h.matched.maxChunk_eq] at hindex
    rw [← hsums]
    exact Nat.le_trans (Nat.mul_le_mul_right _ hindex) (hlength ▸ hle)
  skip count hcount hpos := by
    have hnonneg := h.position_nonneg
    have hle := Int.le_trans h.position_le h.next_le
    exact ⟨isSigned_of_le (by omega) (by omega), fun hroom =>
      isSigned_of_le (by omega) (by omega)⟩
  readFullyAt position buffer offset size hposition :=
    (h.lending buffer).readFullyAtChecked_eq hposition offset size
  perform operation hoperation :=
    (h.ends_perform (Int.le_refl _) hoperation.within).mono (fun _ _ _ => trivial)
      (fun _ _ ht => ht.2)

end Session.InRange

/-- The data of every replica is shorter than a limit. -/
def Replicas.Below (limit : Nat) (r : Replicas) : Prop :=
  ∀ replica ∈ r.list, replica.data.size < limit

instance (limit : Nat) (r : Replicas) : Decidable (r.Below limit) :=
  inferInstanceAs (Decidable (∀ replica ∈ r.list, _))

/-- Where there is no replica there is no data. -/
theorem Replicas.Below.length_lt {r : Replicas} {limit : Nat} (h : r.Below limit)
    (hlimit : 0 < limit) (i : Nat) : (r.get i).data.bytes.length < limit := by
  rw [get, List.getD_eq_getElem?_getD]
  cases hr : r.list[i]? with
  | none => exact hlimit
  | some replica => exact h replica (List.mem_of_getElem? hr)

/-- On replicas whose data is always shorter than 2 ^ 61 bytes, with chunks of less than that, a
stream is secure in every session reached, whatever it is asked to do in signed words and however
the storages are changed in between. -/
theorem secure_of_reaches {checksum : Option Algorithm} {options : Options}
    {list : List (Option Storage × Option Storage)} {replicas : Replicas} {stream : Stream}
    {t : Session (Recorded Replicas)}
    (hreplicas : Replicas.ofList? list options.maxChunk = .ok replicas)
    (hstream : Stream.ofOptions? checksum options = .ok stream)
    (hchunk : options.maxChunk < 2 ^ 61) (hsize : replicas.Below (2 ^ 61))
    (ht : Session.Reaches Replicas.source.recorded Operation.Signed
      (fun x y => Recorded.Restocked x y ∧ y.state.Below (2 ^ 61))
      { stream, source := { state := replicas } } t) : t.Secure := by
  have hmost : ∀ {r : Replicas}, r.Below (2 ^ 61) →
      ∀ i, ((r.get i).data.bytes.length : Int) ≤ 2 ^ 61 - 1 := fun hr i => by
    have hlength := hr.length_lt (by decide) i
    omega
  have hinRange : t.InRange checksum options.maxChunk (2 ^ 61 - 1) Word.maxSigned := by
    refine ht.keeps (.of_new hreplicas hstream (Nat.lt_trans hchunk (by decide)) (hmost hsize)
      (by decide)) (fun operation hoperation s hs => ?_)
      (fun s x hs hx => hs.restocked hx.1 (hmost hx.2))
    exact (hs.ends_perform (Int.le_refl _) hoperation.within).mono (fun _ _ hu => hu)
      (fun _ _ hu => hu.1)
  exact hinRange.secure

/-- A seek to the greatest position ends in the chunk before it, as does a skip from there. -/
theorem secure_at_greatest_position :
    ∃ replicas stream,
      Replicas.ofList? ([Replica.ofBytes .crc32 2 [1, 2, 3]].map Replica.storages) 2 =
          .ok replicas ∧
        Stream.ofOptions? (some .crc32) { maxChunk := 2 } = .ok stream ∧
        replicas.Below (2 ^ 61) ∧
        ∃ t, t = Operation.run Replicas.source.recorded { stream, source := { state := replicas } }
            [.seek Word.maxSigned, .skip Word.maxSigned, .switch (-1), .setVerify false] ∧
          t.stream.position = Word.maxSigned - 1 ∧ t.Secure := by
  have hreplicas : Replicas.ofList?
      ([Replica.ofBytes .crc32 2 [1, 2, 3]].map Replica.storages) 2 = .ok _ := rfl
  have hstream : Stream.ofOptions? (some .crc32) { maxChunk := 2 } = .ok _ := rfl
  refine ⟨_, _, hreplicas, hstream, by decide +kernel, _, rfl, by decide +kernel, ?_⟩
  refine secure_of_reaches hreplicas hstream (by decide) (by decide +kernel)
    (.run .refl _ fun operation hoperation => ?_)
  simp only [List.mem_cons, List.not_mem_nil, or_false] at hoperation
  obtain rfl | rfl | rfl | rfl := hoperation
  · exact (by decide : Word.IsSigned Word.maxSigned)
  · exact (by decide : Word.IsSigned Word.maxSigned)
  · exact (by decide : Word.IsSigned (-1))
  · trivial

end ChunkGuard
