import ChunkGuard.Proofs.Crack
import ChunkGuard.Proofs.Handing
import ChunkGuard.Proofs.Retaining

/-!
# Where a seek comes to

A seek to a position in the window moves the cursor there, and the bytes from there on can be read
again. Any other seek reads from the start of the position's chunk on, a chunk's size at a time, until
it is past the position or the data ends.
-/

namespace ChunkGuard

open Session

variable {σ : Type} {source : Source σ}

/-! ## Reading what the window retains -/

/-- The operation reads so many bytes from where the stream is. -/
def Operation.Takes (size : Nat) : Operation → Prop
  | readByte => size = 1
  | read buffer offset n => n = size ∧ offset + size ≤ buffer.length
  | _ => False

/-- These bytes were handed out by reads in a row, none of which goes past where the source is read
next. -/
inductive Session.Rereads (source : Source σ) (s : Session (Recorded σ)) :
    Bytes → Session (Recorded σ) → Prop where
  | start : Rereads source s [] s
  | read {t u : Session (Recorded σ)} {bytes : Bytes} {operation : Operation} {size : Nat}
      {outcome : Outcome} :
      Rereads source s bytes t → operation.Takes size → t.stream.position + size ≤ t.stream.next →
      operation.perform source.recorded t = .ok outcome u →
      Rereads source s (bytes ++ operation.handed outcome u) u

/-- Reads up to where the source is read next hand out what was fetched last, without a call. -/
structure Session.Replays (source : Source σ) (s : Session (Recorded σ)) : Prop where
  reads : ∀ bytes t, s.Rereads source bytes t → ∀ (operation : Operation) size,
    operation.Takes size → t.stream.position + size ≤ t.stream.next →
    ∃ outcome u, operation.perform source.recorded t = .ok outcome u ∧
      (operation.handed outcome u).length = size
  bytes : ∀ bytes t, s.Rereads source bytes t →
    t.source = s.source ∧ t.stream.next = s.stream.next ∧
      t.stream.position = s.stream.position + bytes.length ∧
      ∀ i < bytes.length, bytes[i]? = s.source.fetched? (s.stream.position.toNat + i)

/-- A read of what is in the window copies it. -/
theorem Stream.ends_read_of_available {s : Session σ} {offset size : Nat}
    {Q : Option Nat → Session σ → Prop} {E : StreamError → Session σ → Prop}
    (hroom : offset + size ≤ s.lent.length) (havailable : size ≤ s.stream.available)
    (hzero : size = 0 → Q (some 0) s)
    (hcopied : 0 < size → Q (some size)
      { s with
        lent := Bytes.write offset (Bytes.padded s.stream.cursor size s.stream.window) s.lent
        stream := { s.stream with cursor := s.stream.cursor + size } }) :
    Ends (Stream.read source offset size) s Q E := by
  simp only [Stream.read, ends_bind, ends_get, ends_ite, ends_pure, ends_throw]
  refine ⟨fun houtside => absurd hroom (by omega), fun _ => ⟨fun hnone => hnone ▸ hzero hnone,
    fun hsome => ?_⟩⟩
  obtain ⟨fuel, rfl⟩ := Nat.exists_eq_succ_of_ne_zero hsome
  have hmin : min s.stream.available (fuel + 1) = fuel + 1 := Nat.min_eq_right havailable
  simp only [Stream.readUpTo, Stream.readOnce, ends_bind, ends_getStream, ends_ite, ends_pure,
    Stream.ends_copy, hmin]
  refine ⟨fun hempty => by omega, fun _ => ⟨fun _ => ?_, fun hless => absurd hless (by omega)⟩⟩
  rw [if_neg hsome]
  exact hcopied (Nat.succ_pos fuel)

namespace Session.Traced

variable {s t : Session (Recorded σ)} {operation : Operation} {size : Nat}

/-- A read handed out so many bytes from where the stream was, as they were fetched last, and only the
cursor moved. -/
structure Reread (s : Session (Recorded σ)) (handed : Bytes) (t : Session (Recorded σ)) : Prop where
  traced : t.Traced
  source_eq : t.source = s.source
  next_eq : t.stream.next = s.stream.next
  position_eq : t.stream.position = s.stream.position + handed.length
  fetched : ∀ i < handed.length, handed[i]? = s.source.fetched? (s.stream.position.toNat + i)

theorem Reread.refl (h : s.Traced) : Reread s [] s :=
  ⟨h, rfl, rfl, (Int.add_zero _).symm, nofun⟩

/-- What the lent buffer held before doesn't matter. -/
theorem Reread.of_lending {buffer handed : Bytes} (h : Reread { s with lent := buffer } handed t) :
    Reread s handed t :=
  ⟨h.traced, h.source_eq, h.next_eq, h.position_eq, h.fetched⟩

/-- A byte of the window is handed out as it was fetched last. -/
theorem reread_taken (h : s.Traced) (hunused : s.stream.cursor < s.stream.filled) :
    Reread s [s.stream.window.getD s.stream.cursor 0]
      { s with stream := { s.stream with cursor := s.stream.cursor + 1 } } := by
  obtain ⟨htaken, hposition, hfetched⟩ := h.taken hunused
  refine ⟨htaken, rfl, rfl, hposition, fun i hi => ?_⟩
  obtain rfl := Nat.lt_one_iff.mp hi
  exact hfetched.symm

/-- Bytes that are copied to the lent buffer are handed out as they were fetched last. -/
theorem reread_copied (h : s.Traced) {offset : Nat} (hroom : offset + size ≤ s.lent.length)
    (hsize : size ≤ s.stream.filled - s.stream.cursor) {t : Session (Recorded σ)}
    (ht : t = { s with
      lent := Bytes.write offset (Bytes.padded s.stream.cursor size s.stream.window) s.lent
      stream := { s.stream with cursor := s.stream.cursor + size } }) :
    Reread s (Bytes.padded offset size t.lent) t := by
  have hcopied := h.copied offset hsize hroom
  rw [← ht] at hcopied
  have hlength : (Bytes.padded offset size t.lent).length = size := Bytes.length_padded _ _ _
  refine ⟨hcopied.traced, by rw [ht], by rw [ht], hlength.symm ▸ hcopied.position, fun i hi => ?_⟩
  rw [hlength] at hi
  obtain ⟨byte, hbyte, hfetched⟩ := hcopied.bytes i hi
  have hsource : t.source = s.source := by rw [ht]
  rw [Bytes.getElem?_padded, if_pos hi, List.getD_eq_getElem?_getD, hbyte, Option.getD_some,
    ← hsource, hfetched]

/-- A read within the window hands out what was fetched last. -/
theorem ends_of_takes (source : Source σ) (h : s.Traced) (htakes : operation.Takes size)
    (hnext : s.stream.position + size ≤ s.stream.next) :
    Ends (operation.perform source.recorded) s
      (fun outcome t => (operation.handed outcome t).length = size ∧
        Reread s (operation.handed outcome t) t)
      (fun _ _ => False) := by
  have hcursor := h.cursor_le
  have hinside : s.stream.cursor + size ≤ s.stream.filled := by
    rw [Stream.position] at hnext
    omega
  cases operation with
  | readByte =>
      obtain rfl : size = 1 := htakes
      simp only [Operation.perform, Stream.readByte, ends_bind, ends_getStream, ends_ite, ends_pure,
        ends_modifyStream]
      exact ⟨fun hused => absurd hinside (Nat.not_lt_of_le hused),
        fun _ => ⟨fun hused => absurd hinside (Nat.not_lt_of_le hused), fun _ =>
          ⟨rfl, h.reread_taken hinside⟩⟩⟩
  | read buffer offset n =>
      obtain ⟨rfl, hroom⟩ := htakes
      have hlending := h.lending buffer
      have hsize : n ≤ s.stream.filled - s.stream.cursor := by omega
      simp only [Operation.perform, ends_bind, ends_pure, Operation.ends_lend,
        Stream.ends_seekable_read]
      refine Stream.ends_read_of_available hroom ?_ (fun hzero => ?_) (fun _ => ?_)
      · rw [hlending.available_eq]
        exact hsize
      · subst hzero
        have hnothing : Bytes.padded offset 0 buffer = [] :=
          List.eq_nil_of_length_eq_zero (Bytes.length_padded _ _ _)
        refine ⟨Bytes.length_padded _ _ _, ?_⟩
        show Reread s (Bytes.padded offset 0 buffer) _
        rw [hnothing]
        exact (Reread.refl hlending).of_lending
      · exact ⟨Bytes.length_padded _ _ _, (hlending.reread_copied hroom hsize rfl).of_lending⟩
  | _ => exact htakes.elim

/-- Reads within the window, as many as there may be, hand out what was fetched last. -/
theorem rereads (h : s.Traced) {bytes : Bytes} (ht : s.Rereads source bytes t) :
    Reread s bytes t := by
  have hnonneg := h.position_nonneg
  induction ht with
  | start => exact .refl h
  | @read t u bytes operation size outcome _ htakes hnext hperform ih =>
      have hu := ((ih.traced.ends_of_takes source htakes hnext).ok hperform).2
      have hposition := ih.position_eq
      refine ⟨hu.traced, hu.source_eq.trans ih.source_eq, hu.next_eq.trans ih.next_eq, ?_,
        fun i hi => ?_⟩
      · rw [hu.position_eq, hposition, List.length_append]
        omega
      · rw [List.length_append] at hi
        by_cases hfirst : i < bytes.length
        · rw [List.getElem?_append_left hfirst, ih.fetched i hfirst]
        · have hoffset : t.stream.position.toNat + (i - bytes.length) =
              s.stream.position.toNat + i := by omega
          rw [List.getElem?_append_right (Nat.le_of_not_lt hfirst), hu.fetched _ (by omega),
            ih.source_eq, hoffset]

theorem replays (h : s.Traced) : s.Replays source where
  reads bytes t ht operation size htakes hnext := by
    obtain ⟨outcome, u, hperform, hlength, -⟩ :=
      ((h.rereads ht).traced.ends_of_takes source htakes hnext).exists_ok
    exact ⟨outcome, u, hperform, hlength⟩
  bytes bytes t ht :=
    have hreread := h.rereads ht
    ⟨hreread.source_eq, hreread.next_eq, hreread.position_eq, hreread.fetched⟩

end Session.Traced

/-! ## Discarding -/

/-- What a seek needs of its source: the bytes from the start of the position's chunk up to the position,
a chunk's size at a time. -/
def Session.seekDemand (source : Source σ) (s : Session (Recorded σ)) (position : Int) : Demand where
  start := source.start s.source.state position
  need := (position - source.start s.source.state position).toNat
  size _ := s.stream.maxChunk
  capacity := s.stream.capacity

/-- Where a seek comes to, for bytes that the source supplied by some calls. -/
structure Session.SoughtBy (source : Source σ) (s : Session (Recorded σ)) (position : Int)
    (calls : List (Call σ)) (got : Bytes) (t : Session (Recorded σ)) : Prop where
  supply : (s.seekDemand source position).Supply calls got
  next_eq : t.stream.next = source.start s.source.state position + got.length
  position_eq : t.stream.position = min position t.stream.next
  cursor_le : t.stream.cursor ≤ t.stream.filled
  /-- Short of the position nothing is left in the window, and the last reply had no data. -/
  ended : t.stream.next < position → t.stream.filled = 0 ∧
    ∃ before x request reply, calls = before ++ [.read x request (.ok reply)] ∧ reply.data = []

namespace Session

/-- A seek to a position has so much left to discard. -/
structure Nearing (source : Source σ) (s : Session (Recorded σ)) (position left : Int)
    (got : Bytes) (t : Session (Recorded σ)) : Prop where
  supplied : s.Supplied (s.seekDemand source position) got t
  cursor_le : t.stream.cursor ≤ t.stream.filled
  position_eq : t.stream.position + left = position

/-- A seek came to its end, or a call in it fails. -/
def Sought (source : Source σ) (s : Session (Recorded σ)) (position : Int)
    (t : Session (Recorded σ)) : Prop :=
  s.Disturbed t ∨ ∃ calls got, s.Called calls t ∧ s.SoughtBy source position calls got t

namespace Nearing

variable {position left : Int} {got : Bytes} {reply : Reply} {s t u : Session (Recorded σ)}

theorem start (hs : s.stream.Ready) (position : Int) :
    Nearing source s position (position - source.start s.source.state position) []
      (s.jumped (source.start s.source.state position)) := by
  have hcalled := (Called.refl s).of_alike
    (s.alike_jumped hs (source.start s.source.state position)) rfl rfl
  refine ⟨⟨⟨[], hcalled, .nil⟩, (Int.add_zero _).symm⟩, Nat.le_refl 0, ?_⟩
  show source.start s.source.state position - ((0 : Nat) - (0 : Nat) : Int) + _ = _
  omega

theorem next_eq (h : Nearing source s position left got t) :
    t.stream.next = source.start s.source.state position + got.length := h.supplied.next_eq

/-- With nothing left to discard, the stream is at the position. -/
theorem sought (h : Nearing source s position 0 got t) : Sought source s position t := by
  have hnext := h.next_eq
  have hposition := h.position_eq
  have hcursor := h.cursor_le
  rw [Stream.position] at hposition
  have hfull : (position - source.start s.source.state position).toNat ≤ got.length := by omega
  obtain ⟨calls, hcalled, hsupply⟩ := h.supplied.full hfull
  refine .inr ⟨calls, got, hcalled, hsupply, hnext, ?_, hcursor, fun hshort => by omega⟩
  rw [Stream.position]
  omega

section Used

variable (h : Nearing source s position left got t) (hleft : 0 < left)
  (hused : t.stream.filled ≤ t.stream.cursor)
include h hleft hused

theorem length_lt_need : got.length < (s.seekDemand source position).need := by
  have hnext := h.next_eq
  have hposition := h.position_eq
  have hcursor := h.cursor_le
  rw [Stream.position] at hposition
  show got.length < (position - source.start s.source.state position).toNat
  omega

variable (hu : Stream.Replied source .window t.stream.maxChunk reply t u)
include hu

/-- A reply without data is where it ends. -/
theorem short (hreply : reply.data = []) :
    Sought source s position { u with stream := { u.stream with filled := reply.data.length } } := by
  have hless := h.length_lt_need hleft hused
  have hbefore := h.next_eq
  have hposition := h.position_eq
  have hcursor := h.cursor_le
  have hsame : u.stream.next = t.stream.next := by
    rw [hu.next_eq, hreply]
    exact Int.add_zero _
  rw [Stream.position] at hposition
  rw [hreply]
  obtain ⟨calls, hcalled, hsupply⟩ :=
    h.supplied.short rfl h.supplied.alike.maxChunk hless hu hreply
  refine .inr ⟨calls, got, hcalled.of_alike .placed rfl rfl, hsupply, hsame.trans hbefore, ?_,
    Nat.le_of_eq hu.cursor, fun _ => ⟨rfl, ?_⟩⟩
  · have hzero := hu.cursor
    show u.stream.next - ((0 : Nat) - (u.stream.cursor : Int)) = min position u.stream.next
    omega
  · obtain ⟨before, x, request, reply, hcalls, -, hended⟩ := hsupply.last (by omega)
    exact ⟨before, x, request, reply, hcalls, hended hless⟩

/-- Otherwise there is more to discard. -/
theorem more (hreply : reply.data ≠ []) :
    Nearing source s position left (got ++ reply.data)
      { u with stream := { u.stream with filled := reply.data.length } } := by
  have hless := h.length_lt_need hleft hused
  have hsupplied := h.supplied.more rfl h.supplied.alike.maxChunk hless hu hreply
  have hnext := hu.next_eq
  have hposition := h.position_eq
  have hcursor := h.cursor_le
  have hzero := hu.cursor
  rw [Stream.position] at hposition
  refine ⟨hsupplied.of_alike .placed rfl rfl rfl, ?_, ?_⟩
  · show u.stream.cursor ≤ reply.data.length
    omega
  · show u.stream.next - ((reply.data.length : Int) - u.stream.cursor) + left = position
    omega

end Used

/-- A step hands out of the window to nobody. -/
theorem discarded (h : Nearing source s position left got t) (hleft : 0 < left) :
    Nearing source s position
      (left - min ((t.stream.filled : Int) - t.stream.cursor) left) got (t.discarded left) := by
  have hposition := t.position_discarded (Int.le_of_lt hleft)
  have hbefore := h.position_eq
  exact ⟨h.supplied.of_alike .placed rfl rfl rfl, t.cursor_discarded_le left, by omega⟩

end Nearing

end Session

namespace Stream

variable {position : Int} {s : Session (Recorded σ)}

/-- Discarding goes on until it reaches the position or the data ends, unless a call in it fails. -/
theorem ends_discardWith_sought (hs : s.stream.Ready) (hattempts : 0 < s.stream.attempts)
    (hbefore : source.start s.source.state position ≤ position) (nesting : Nat) {fuel : Nat}
    (hfuel : position - source.start s.source.state position ≤ fuel) :
    Ends (discardWith (refill source.recorded (nesting + 1)) fuel
        (position - source.start s.source.state position))
      (s.jumped (source.start s.source.state position))
      (fun _ t => Sought source s position t) (fun _ t => s.Disturbed t) := by
  have hcalls := source.respects_calls
  refine ends_discardWith_of_turns
    (I := fun fuel left t => s.Disturbed t ∨ (0 ≤ left ∧ left ≤ fuel ∧
      ∃ got, Nearing source s position left got t))
    (J := fun fuel left t => s.Disturbed t ∨ (0 < left ∧ left ≤ fuel + 1 ∧
      t.stream.cursor < t.stream.filled ∧ ∃ got, Nearing source s position left got t))
    ?done ?spent ?unused ?used ?step
    (.inr ⟨by omega, hfuel, [], .start hs position⟩)
  case done =>
    rintro fuel left t (hdisturbed | ⟨hleft, -, got, ht⟩) hdone
    · exact .inl hdisturbed
    · obtain rfl : left = 0 := by omega
      exact ht.sought
  case spent =>
    rintro left t (hdisturbed | ⟨-, hfuel, -⟩) hleft
    · exact hdisturbed
    · omega
  case unused =>
    rintro fuel left t (hdisturbed | ⟨-, hfuel, hgot⟩) hleft hunused
    · exact .inl hdisturbed
    · exact .inr ⟨hleft, hfuel, hunused, hgot⟩
  case used =>
    rintro fuel left t (hdisturbed | ⟨-, hfuel, got, ht⟩) hleft hused
    · refine (keeps_disturbed hs (fun _ ho => keeps_refill hcalls ho _) t hdisturbed).mono
        (fun _ u hu => ⟨fun _ => .inl hu, fun _ => .inl hu⟩) (fun _ _ hu => hu)
    · have halike := ht.supplied.alike
      refine (ends_refill_supplied (halike.ready hs) (halike.attempts ▸ hattempts) hused nesting).mono
        (fun _ u hu => ?_) (fun _ u hu => ht.supplied.disturbed hu)
      obtain hdisturbed | ⟨reply, v, hv, rfl⟩ := hu
      · have hdisturbed := ht.supplied.disturbed hdisturbed
        exact ⟨fun _ => .inl hdisturbed, fun _ => .inl hdisturbed⟩
      · refine ⟨fun hfilled => ?_, fun hfilled => .inr ⟨hleft, hfuel, ?_, got ++ reply.data, ?_⟩⟩
        · exact ht.short hleft hused hv (List.eq_nil_of_length_eq_zero hfilled)
        · show v.stream.cursor < reply.data.length
          rw [hv.cursor]
          exact Nat.pos_of_ne_zero hfilled
        · exact ht.more hleft hused hv fun hreply => hfilled (congrArg List.length hreply)
  case step =>
    rintro fuel left t (hdisturbed | ⟨hleft, hfuel, hunused, got, ht⟩)
    · exact .inl (hdisturbed.of_alike .placed rfl)
    · exact .inr ⟨by omega, by omega, got, ht.discarded hleft⟩

end Stream

/-! ## Seeking -/

namespace Operation

section

variable {source : Source σ} {s : Session σ} {position : Int}

/-- A seek to a negative position does nothing. -/
theorem perform_seek_of_neg (h : position < 0) :
    (seek position).perform source s = .ok .nothing s := by
  have hnothing : Ends ((seek position).perform source) s
      (fun outcome t => outcome = .nothing ∧ t = s) (fun _ _ => False) := by
    simp only [perform, ends_bind, ends_pure, Stream.ends_seek, Stream.seekNested,
      Stream.ends_seekWith]
    exact ⟨fun _ => ⟨trivial, trivial⟩, fun hpos => absurd h hpos⟩
  obtain ⟨_, _, hperform, rfl, rfl⟩ := hnothing.exists_ok
  exact hperform

/-- A seek into the window moves the cursor. -/
theorem perform_seek_of_inside (hpos : 0 ≤ position)
    (hfrom : s.stream.next - s.stream.filled ≤ position) (hto : position < s.stream.next) :
    (seek position).perform source s = .ok .nothing { s with
      stream := { s.stream with
        cursor := (position - (s.stream.next - s.stream.filled)).toNat } } := by
  have hmoved : Ends ((seek position).perform source) s
      (fun outcome t => outcome = .nothing ∧ t = { s with
        stream := { s.stream with
          cursor := (position - (s.stream.next - s.stream.filled)).toNat } })
      (fun _ _ => False) := by
    simp only [perform, ends_bind, ends_pure, Stream.ends_seek, Stream.seekNested,
      Stream.ends_seekWith]
    exact ⟨fun hneg => absurd hneg (Int.not_lt.mpr hpos),
      fun _ => ⟨fun _ => ⟨trivial, trivial⟩, fun houtside => absurd ⟨hfrom, hto⟩ houtside⟩⟩
  obtain ⟨_, _, hperform, rfl, rfl⟩ := hmoved.exists_ok
  exact hperform

end

/-- Any other seek goes to the start of the position's chunk and on from there. -/
theorem ends_seek_of_outside {s : Session (Recorded σ)} {position : Int} (hsource : source.Grounded)
    (hs : s.stream.Ready) (hattempts : 0 < s.stream.attempts) (hpos : 0 ≤ position)
    (houtside : ¬ (s.stream.next - s.stream.filled ≤ position ∧ position < s.stream.next)) :
    Ends ((seek position).perform source.recorded) s
      (fun outcome t => outcome = .nothing ∧ Sought source s position t) (fun _ t => s.Disturbed t) := by
  have hbefore := hsource.start_le s.source.state hpos
  simp only [perform, ends_bind, ends_pure, Stream.ends_seek, Stream.seekNested,
    Stream.ends_seekWith]
  refine ⟨fun hneg => absurd hneg (Int.not_lt.mpr hpos), fun _ =>
    ⟨fun hinside => absurd hinside houtside, fun _ =>
      ⟨fun hpast => absurd hpast (Int.not_lt.mpr hbefore), fun _ => ?_⟩⟩⟩
  refine (Stream.ends_discardWith_sought hs hattempts hbefore _ ?_).mono
    (fun _ t ht => ⟨trivial, ht⟩) (fun _ _ ht => ht)
  show _ ≤ ((s.stream.discardFuel (position - source.start s.source.state position) : Nat) : Int)
  rw [Stream.discardFuel]
  have hmore := Nat.zero_le ((s.stream.nesting + 1) * (s.stream.maxChunk + 1))
  omega

end Operation

/-- A seek into the window lets the bytes from there on be read again, where the window retains them. -/
theorem Session.Retains.replays {s : Session (Recorded σ)} (h : s.Retains) (hready : s.stream.Ready)
    (hattempts : 0 < s.stream.attempts) (hchunk : s.stream.maxChunk < Word.count)
    (hbalanced : s.stream.Balanced) {position : Int}
    (hinside : s.stream.next - s.stream.filled ≤ position ∧ position < s.stream.next) :
    Session.Replays source { s with
      stream := { s.stream with
        cursor := (position - (s.stream.next - s.stream.filled)).toNat } } :=
  ((h.traced hready hattempts hchunk hbalanced).moved (by omega)).replays

/-- Whatever was done with a stream, and however its source changed on the way, a seek does this where
the cursor is in the window. A negative position changes nothing. A position in the window only moves
the cursor, and unless a fetch failed over inside of a chunk before, the bytes up to where the source is
read next can be read again as they were fetched last. For any other position the source is read from
the start of its chunk on, until the position is reached or a reply has no data. Then the stream is at
the position, or where the data ended with nothing in the window. It doesn't fail by itself. Over
replicas the cursor is always in the window, and the bytes of the window can always be read again. -/
theorem seek_reaches {checksum : Option Algorithm} {options : Options} {stream : Stream}
    (hstream : Stream.ofOptions? checksum options = .ok stream)
    (hchunk : options.maxChunk < Word.count) :
    (∀ (σ : Type) (source : Source σ) (x : σ) (s : Session (Recorded σ)) (position : Int),
      source.Grounded →
      Session.Reaches source.recorded (fun _ => True) (fun x y => y.calls = x.calls)
        { stream, source := { state := x } } s →
      s.stream.Balanced →
      (position < 0 → (Operation.seek position).perform source.recorded s = .ok .nothing s) ∧
      (0 ≤ position → s.stream.next - s.stream.filled ≤ position → position < s.stream.next →
        ∃ t, (Operation.seek position).perform source.recorded s = .ok .nothing t ∧
          t.source = s.source ∧ t.stream.next = s.stream.next ∧ t.stream.position = position ∧
          (¬ s.Strayed source → t.Replays source)) ∧
      (0 ≤ position → ¬ (s.stream.next - s.stream.filled ≤ position ∧ position < s.stream.next) →
        Ends ((Operation.seek position).perform source.recorded) s
          (fun outcome t => outcome = .nothing ∧ ∃ calls, t.source.calls = s.source.calls ++ calls ∧
            (s.stream.Troubled s.stream.sums calls ∨
              ∃ got, s.SoughtBy source position calls got t ∧
                (position = source.start s.source.state position → calls = [])))
          (fun _ t => ∃ calls, t.source.calls = s.source.calls ++ calls ∧
            s.stream.Troubled s.stream.sums calls))) ∧
    ∀ (replicas : Replicas) (s : Session (Recorded Replicas)) (position : Int),
      Session.Reaches Replicas.source.recorded (fun _ => True)
        (fun x y => y.calls = x.calls) { stream, source := { state := replicas } } s →
      s.stream.Balanced ∧
      (0 ≤ position → s.stream.next - s.stream.filled ≤ position → position < s.stream.next →
        ∃ t, (Operation.seek position).perform Replicas.source.recorded s = .ok .nothing t ∧
          t.source = s.source ∧ t.stream.position = position ∧ t.Replays Replicas.source) := by
  have hposition : ∀ (σ : Type) (s : Session (Recorded σ)) (position : Int),
      s.stream.next - s.stream.filled ≤ position →
      Stream.position { s.stream with
        cursor := (position - (s.stream.next - s.stream.filled)).toNat } = position := by
    intro σ s position hfrom
    rw [Stream.position]
    dsimp only
    omega
  refine ⟨fun σ source x s position hsource hs hbalanced => ?general, fun replicas s position hs => ?replicas⟩
  case general =>
    obtain ⟨hready, hattempts, hmaxChunk⟩ := hs.built hstream
    refine ⟨Operation.perform_seek_of_neg, fun hpos hfrom hto => ?inside,
      fun hpos houtside => ?outside⟩
    case inside =>
      refine ⟨_, Operation.perform_seek_of_inside hpos hfrom hto, rfl, rfl,
        hposition _ s position hfrom, fun hstrayed => ?_⟩
      have hretains := Session.Retains.of_reaches hsource source.warns_strayed hstream
        (fun x y (hxy : y.calls = x.calls) => ⟨hxy ▸ List.prefix_refl _, hxy⟩) trivial hs hstrayed
      exact hretains.replays hready hattempts (hmaxChunk ▸ hchunk) hbalanced ⟨hfrom, hto⟩
    case outside =>
      refine (Operation.ends_seek_of_outside hsource hready hattempts hpos houtside).mono
        (fun outcome t ht => ⟨ht.1, ?_⟩) (fun _ t ht => ht.trouble)
      obtain hdisturbed | ⟨calls, got, hcalled, hsought⟩ := ht.2
      · obtain ⟨calls, hcalls, htroubled⟩ := hdisturbed.trouble
        exact ⟨calls, hcalls, .inl htroubled⟩
      · refine ⟨calls, hcalled.calls_eq, .inr ⟨got, hsought, fun hstart => hsought.supply.eq_nil ?_⟩⟩
        show (position - source.start s.source.state position).toNat = 0
        omega
  case replicas =>
    obtain ⟨hready, hattempts, hmaxChunk⟩ := hs.built hstream
    have hwarns := Replicas.settles.recorded.warns_nothing
    have hbalanced := Stream.balanced_of_reaches Replicas.bounded_source.recorded hwarns hstream
      (fun _ _ _ => trivial) trivial hs id
    refine ⟨hbalanced, fun hpos hfrom hto => ?_⟩
    refine ⟨_, Operation.perform_seek_of_inside hpos hfrom hto, rfl, hposition _ s position hfrom, ?_⟩
    have hretains := Session.Retains.of_reaches Replicas.orderly_source.grounded hwarns hstream
      (fun _ _ hxy => ⟨trivial, hxy⟩) trivial hs id
    exact hretains.replays hready hattempts (hmaxChunk ▸ hchunk) hbalanced ⟨hfrom, hto⟩

theorem Source.Aligning.grounded {source : Source σ} (h : source.Aligning) : source.Grounded where
  start_nonneg x _ hposition := (h x _ hposition).1
  start_le x _ hposition := (h x _ hposition).2.1

/-- With the first chunk in the window, a seek goes back to its first byte, which can be read again,
and one into the third chunk ends after the first byte of it. -/
theorem seek_reaches_back_and_end :
    let sum := fun data => Stored.store (Algorithm.crc32.sum data)
    let script : Script :=
      { align := 4, switches := [],
        replies := [.gives [1, 2, 3, 4] (sum [1, 2, 3, 4]), .gives [5] (sum [5])] }
    ∃ stream t, Stream.ofOptions? (some .crc32) { maxChunk := 4 } = .ok stream ∧
      Operation.readByte.after (Script.aligned 4).recorded
        { stream, source := { state := script } } = t ∧
      t.stream.Balanced ∧
      (Operation.seek (-1)).perform (Script.aligned 4).recorded t = .ok .nothing t ∧
      (∃ u, (Operation.seek 0).perform (Script.aligned 4).recorded t = .ok .nothing u ∧
        u.source = t.source ∧ u.stream.position = 0 ∧ u.stream.next = 4 ∧
        u.Replays (Script.aligned 4)) ∧
      Ends ((Operation.seek 11).perform (Script.aligned 4).recorded) t
        (fun _ u => u.stream.position = 9 ∧ ∃ calls got,
          u.source.calls = t.source.calls ++ calls ∧ calls.length = 2 ∧
            t.SoughtBy (Script.aligned 4) 11 calls got u)
        (fun _ _ => False) := by
  intro sum script
  have hstream : Stream.ofOptions? (some .crc32) { maxChunk := 4 } = .ok _ := rfl
  refine ⟨_, _, hstream, rfl, ?_⟩
  generalize ht : Operation.readByte.after (Script.aligned 4).recorded _ = t
  have hstate : t.stream.next = 4 ∧ t.stream.filled = 4 ∧ t.stream.cursor = 1 ∧
      t.stream.maxChunk = 4 ∧ t.events = [] := by
    rw [← ht]
    decide +kernel
  obtain ⟨hnext, hfilled, hcursor, hmaxChunk, hevents⟩ := hstate
  have hbalanced : t.stream.Balanced := ⟨by omega, by omega⟩
  have hreaches := fun position => (seek_reaches hstream (by decide)).1 Script (Script.aligned 4)
    script t position (Script.aligning_aligned 4).grounded
    (by rw [← ht]; exact .perform .readByte .refl trivial) hbalanced
  have hends : Ends ((Operation.seek 11).perform (Script.aligned 4).recorded) t
      (fun _ u => u.stream.position = 9 ∧
        (u.source.calls.drop t.source.calls.length).length = 2 ∧
        ¬ t.stream.Troubled t.stream.sums (u.source.calls.drop t.source.calls.length))
      (fun _ _ => False) := by
    rw [← ht]
    decide +kernel
  refine ⟨hbalanced, (hreaches (-1)).1 (by decide), ?back, ?ended⟩
  case back =>
    obtain ⟨u, hperform, hsource, hsame, hposition, hreplays⟩ :=
      (hreaches 0).2.1 (by decide) (by omega) (by omega)
    refine ⟨u, hperform, hsource, hposition, hsame.trans hnext, hreplays ?_⟩
    refine Session.not_strayed_of_events fun name p left hevent => ?_
    rw [hevents] at hevent
    cases hevent
  case ended =>
    refine (hends.and ((hreaches 11).2.2 (by decide) (by omega))).mono (fun _ u hu => ?_)
      (fun _ _ hu => hu.1)
    obtain ⟨⟨hposition, hlength, hsound⟩, -, calls, hcalls, hsought⟩ := hu
    rw [hcalls, List.drop_left] at hlength hsound
    obtain ⟨got, hsought, -⟩ := hsought.resolve_left hsound
    exact ⟨hposition, calls, got, hcalls, hlength, hsought⟩

/-- A read past the window fails over inside of the first chunk, after three of its bytes. It leaves
that chunk in the window, where the second one should be, so a seek into the second one reads a byte of
the first again. -/
theorem reread_after_failover :
    let sum := fun data => Stored.store (Algorithm.crc32.sum data)
    let script : Script :=
      { align := 4, switches := [true],
        replies := [.gives [1, 2, 3] (sum [1, 2, 3]), .gives [9] [0, 0, 0, 0],
          .gives [1, 2, 3, 4] (sum [1, 2, 3, 4]), .gives [5, 6, 7, 8] (sum [5, 6, 7, 8])] }
    ∃ stream t, Stream.ofOptions? (some .crc32) { maxChunk := 4 } = .ok stream ∧
      Operation.run (Script.aligned 4).recorded { stream, source := { state := script } }
        [.read (Bytes.zeros 3) 0 3, .read (Bytes.zeros 4) 0 4] = t ∧
      (Script.aligned 4).Grounded ∧ t.stream.Balanced ∧
      t.stream.next - t.stream.filled ≤ 5 ∧ 5 < t.stream.next ∧
      ∃ u, (Operation.seek 5).perform (Script.aligned 4).recorded t = .ok .nothing u ∧
        u.source = t.source ∧ u.stream.position = 5 ∧ u.source.fetched? 5 = some 6 ∧
        Ends (Operation.readByte.perform (Script.aligned 4).recorded) u
          (fun outcome _ => outcome = .byte (some 2)) (fun _ _ => False) := by
  intro sum script
  have hstream : Stream.ofOptions? (some .crc32) { maxChunk := 4 } = .ok _ := rfl
  refine ⟨_, _, hstream, rfl, ?_⟩
  generalize ht : Operation.run (Script.aligned 4).recorded _ _ = t
  have hstate : t.stream.next = 8 ∧ t.stream.filled = 4 ∧ t.stream.cursor = 3 ∧
      t.stream.maxChunk = 4 ∧ t.source.fetched? 5 = some 6 ∧
      Ends (Operation.readByte.perform (Script.aligned 4).recorded)
        { t with stream := { t.stream with cursor := (5 - (t.stream.next - t.stream.filled)).toNat } }
        (fun outcome _ => outcome = .byte (some 2)) (fun _ _ => False) := by
    rw [← ht]
    decide +kernel
  obtain ⟨hnext, hfilled, hcursor, hmaxChunk, hfetched, hbyte⟩ := hstate
  have hfrom : t.stream.next - t.stream.filled ≤ 5 := by omega
  have hto : 5 < t.stream.next := by omega
  refine ⟨(Script.aligning_aligned 4).grounded, ⟨by omega, by omega⟩, hfrom, hto, _,
    Operation.perform_seek_of_inside (by decide) hfrom hto, rfl, ?_, hfetched, hbyte⟩
  rw [Stream.position]
  dsimp only
  omega

end ChunkGuard
