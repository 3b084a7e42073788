import ChunkGuard.Proofs.Supply

/-!
# What a read is made of

A read hands out the bytes left in the window, followed by those that the source supplies, in order and
up to the size asked for. What is left over stays in the window (`read_assembles`). This holds of every
source that keeps to the size of its requests, however short its replies are, as long as none of them
fails.
-/

namespace ChunkGuard

open Session

variable {σ : Type}

/-! ## The bytes left in the window -/

namespace Bytes

theorem take_padded (offset : Nat) {n size : Nat} (h : n ≤ size) (b : Bytes) :
    (padded offset size b).take n = padded offset n b := by
  apply List.ext_getElem?
  intro i
  rw [List.getElem?_take, getElem?_padded, getElem?_padded]
  by_cases hi : i < n
  · rw [if_pos hi, if_pos hi, if_pos (Nat.lt_of_lt_of_le hi h)]
  · rw [if_neg hi, if_neg hi]

theorem drop_padded (offset n size : Nat) (b : Bytes) :
    (padded offset size b).drop n = padded (offset + n) (size - n) b := by
  apply List.ext_getElem?
  intro i
  rw [List.getElem?_drop, getElem?_padded, getElem?_padded, Nat.add_assoc]
  by_cases hi : n + i < size
  · rw [if_pos hi, if_pos (by omega)]
  · rw [if_neg hi, if_neg (by omega)]

/-- What was written at the start stands there. -/
theorem padded_write_zero (src b : Bytes) : padded 0 src.length (write 0 src b) = src := by
  apply List.ext_getElem?
  intro i
  rw [getElem?_padded, Nat.zero_add, List.getD_eq_getElem?_getD, getElem?_write,
    if_neg (Nat.not_lt_zero i), Nat.zero_add, Nat.sub_zero]
  by_cases hi : i < src.length
  · rw [if_pos hi, if_pos hi, List.getElem?_eq_getElem hi, Option.getD_some]
  · rw [if_neg hi, List.getElem?_eq_none (Nat.le_of_not_lt hi)]

theorem take_min_length (size : Nat) (b : Bytes) : b.take (min size b.length) = b.take size :=
  List.take_eq_take_iff.mpr (by omega)

theorem drop_min_length (size : Nat) (b : Bytes) : b.drop (min size b.length) = b.drop size := by
  obtain h | h := Nat.le_total size b.length
  · rw [Nat.min_eq_left h]
  · rw [Nat.min_eq_right h, List.drop_length, List.drop_of_length_le h]

theorem getElem?_write_of_outside {offset i : Nat} {src b : Bytes}
    (hroom : offset + src.length ≤ b.length) (h : i < offset ∨ offset + src.length ≤ i) :
    (write offset src b)[i]? = b[i]? := by
  rw [getElem?_write]
  obtain hi | hi := h
  · rw [if_pos hi, List.getD_eq_getElem?_getD, List.getElem?_eq_getElem (by omega), Option.getD_some]
  · rw [if_neg (by omega), if_neg (by omega)]

end Bytes

namespace Stream

/-- The bytes of the window that can be handed out. -/
def unread (s : Stream) : Bytes := Bytes.padded s.cursor (s.filled - s.cursor) s.window

theorem length_unread (s : Stream) : s.unread.length = s.filled - s.cursor :=
  Bytes.length_padded _ _ _

/-- With the cursor at its end, nothing of the window is left. -/
theorem unread_of_used {s : Stream} (h : s.filled ≤ s.cursor) : s.unread = [] := by
  refine List.eq_nil_of_length_eq_zero ?_
  rw [length_unread]
  omega

theorem Balanced.available_eq {s : Stream} (h : s.Balanced) (hchunk : s.maxChunk < Word.count) :
    s.available = s.unread.length := by
  have hfilled := h.filled_le
  rw [available_eq_mod h.cursor_le, length_unread, Nat.mod_eq_of_lt (by omega)]

theorem Balanced.position_eq_sub {s : Stream} (h : s.Balanced) :
    s.position = s.next - s.unread.length := by
  have hcursor := h.cursor_le
  rw [position, length_unread]
  omega

/-- What a read of so many bytes needs of the source. Past the window it asks for all that is still
needed, as long as that is a chunk or more. -/
def readDemand (s : Stream) (size : Nat) : Demand where
  start := s.next
  need := size - s.unread.length
  size left := max left s.maxChunk
  capacity := s.capacity

end Stream

/-! ## Handing out -/

namespace Session

/-- So many bytes were handed out to the lent buffer from an offset on, of those that were left in the
window followed by those that the source supplied. The others are left in the window now. -/
structure Assembled (s : Session (Recorded σ)) (offset count : Nat) (got : Bytes)
    (t : Session (Recorded σ)) : Prop where
  balanced : t.stream.Balanced
  count_le : count ≤ (s.stream.unread ++ got).length
  lent : t.lent = Bytes.write offset ((s.stream.unread ++ got).take count) s.lent
  unread : t.stream.unread = (s.stream.unread ++ got).drop count

namespace Assembled

variable {source : Source σ} {s t u : Session (Recorded σ)} {offset count size n : Nat}
  {got : Bytes} {reply : Reply}

theorem start (hs : s.stream.Balanced) (hroom : offset ≤ s.lent.length) :
    Assembled s offset 0 [] s where
  balanced := hs
  count_le := Nat.zero_le _
  lent := (Bytes.write_nil hroom).symm
  unread := by rw [List.append_nil, List.drop_zero]

theorem length_unread (h : Assembled s offset count got t) :
    t.stream.unread.length = (s.stream.unread ++ got).length - count := by
  rw [h.unread, List.length_drop]

/-- With nothing left in the window, everything so far was handed out. -/
theorem count_eq (h : Assembled s offset count got t) (hused : t.stream.unread.length = 0) :
    count = (s.stream.unread ++ got).length := by
  have hlength := h.length_unread
  have hcount := h.count_le
  omega

/-- Bytes of the window are handed out by copying them. -/
theorem copied (h : Assembled s offset count got t) (hn : n ≤ t.stream.unread.length) :
    Assembled s offset (count + n) got
      { t with
        lent := Bytes.write (offset + count) (Bytes.padded t.stream.cursor n t.stream.window) t.lent
        stream := { t.stream with cursor := t.stream.cursor + n } } := by
  have hcount := h.count_le
  have hlength := h.length_unread
  have hsize := t.stream.length_unread
  have hcursor := h.balanced.cursor_le
  have htaken : Bytes.padded t.stream.cursor n t.stream.window = t.stream.unread.take n :=
    (Bytes.take_padded _ (by omega) _).symm
  refine ⟨⟨?_, h.balanced.filled_le⟩, by omega, ?_, ?_⟩
  · show t.stream.cursor + n ≤ t.stream.filled
    omega
  · show Bytes.write (offset + count) _ t.lent = _
    have hfirst : ((s.stream.unread ++ got).take count).length = count := by
      rw [List.length_take]
      omega
    rw [htaken, h.unread, h.lent, List.take_add, ← Bytes.write_append, hfirst]
  · show Bytes.padded (t.stream.cursor + n) (t.stream.filled - (t.stream.cursor + n))
      t.stream.window = _
    rw [Nat.sub_add_eq, ← Bytes.drop_padded]
    show t.stream.unread.drop n = _
    rw [h.unread, List.drop_drop]

/-- A fetch into the lent buffer hands out its reply. -/
theorem fetched (h : Assembled s offset count got t) (hused : t.stream.unread.length = 0)
    (hroom : offset + count + size ≤ t.lent.length)
    (hu : Stream.Replied source (.lent (offset + count)) size reply t u) :
    Assembled s offset (count + reply.data.length) (got ++ reply.data) u := by
  have hcount := h.count_eq hused
  have hbefore := h.lent
  have hlent : u.lent = Bytes.write (offset + count) reply.data t.lent := (hu.put hroom).1
  have hempty : u.stream.filled ≤ u.stream.cursor := by
    rw [hu.filled]
    exact Nat.zero_le _
  have hwhole : s.stream.unread ++ (got ++ reply.data) = s.stream.unread ++ got ++ reply.data :=
    (List.append_assoc _ _ _).symm
  have hlength : (s.stream.unread ++ got ++ reply.data).length = count + reply.data.length := by
    rw [List.length_append, hcount]
  refine ⟨⟨?_, ?_⟩, ?_, ?_, ?_⟩
  · rw [hu.cursor]
    exact Nat.zero_le _
  · rw [hu.filled]
    exact Nat.zero_le _
  · exact hwhole ▸ Nat.le_of_eq hlength.symm
  · rw [List.take_of_length_le (Nat.le_of_eq hcount.symm)] at hbefore
    rw [hlent, hbefore, hwhole, List.take_of_length_le (Nat.le_of_eq hlength), hcount,
      Bytes.write_append]
  · rw [hwhole, List.drop_of_length_le (Nat.le_of_eq hlength), Stream.unread_of_used hempty]

/-- A fetch into the window leaves its reply there. -/
theorem filled (h : Assembled s offset count got t) (hused : t.stream.unread.length = 0)
    (hu : Stream.Replied source .window size reply t u) (hreply : reply.data.length ≤ u.stream.maxChunk) :
    Assembled s offset count (got ++ reply.data)
      { u with stream := { u.stream with filled := reply.data.length } } := by
  have hcount := h.count_eq hused
  obtain ⟨hlent, hwindow⟩ := hu.put trivial
  have hlent : u.lent = t.lent := hlent
  have hwindow : u.stream.window = Bytes.write 0 reply.data t.stream.window := hwindow
  refine ⟨⟨?_, hreply⟩, ?_, ?_, ?_⟩
  · show u.stream.cursor ≤ _
    rw [hu.cursor]
    exact Nat.zero_le _
  · rw [← List.append_assoc, List.length_append]
    omega
  · show u.lent = _
    rw [hlent, h.lent, ← List.append_assoc, List.take_append_of_le_length (Nat.le_of_eq hcount)]
  · show Bytes.padded u.stream.cursor (reply.data.length - u.stream.cursor) u.stream.window = _
    rw [hu.cursor, hwindow, Nat.sub_zero, Bytes.padded_write_zero, ← List.append_assoc, hcount,
      List.drop_left]

end Assembled

end Session

/-! ## Reading -/

namespace Session

/-- A read of so many bytes has handed out some of them, from what the source supplied so far. -/
structure Serving (s : Session (Recorded σ)) (offset size count : Nat) (got : Bytes)
    (t : Session (Recorded σ)) : Prop where
  supplied : s.Supplied (s.stream.readDemand size) got t
  assembled : s.Assembled offset count got t

/-- The read has handed out all that there is of what it asked for. -/
def Served (s : Session (Recorded σ)) (offset size count : Nat) (t : Session (Recorded σ)) : Prop :=
  ∃ calls got, s.Called calls t ∧ (s.stream.readDemand size).Supply calls got ∧
    t.stream.next = s.stream.next + got.length ∧ s.Assembled offset count got t ∧
    count = min size (s.stream.unread ++ got).length

namespace Serving

variable {source : Source σ} {target : Stream.Target} {reply : Reply} {s t u : Session (Recorded σ)}
  {offset size asked count n : Nat} {got : Bytes}

theorem start (hs : s.stream.Balanced) (hroom : offset ≤ s.lent.length) :
    Serving s offset size 0 [] s where
  supplied := ⟨⟨[], .refl s, .nil⟩, (Int.add_zero _).symm⟩
  assembled := .start hs hroom

/-- More of the window is handed out. -/
theorem copied (h : Serving s offset size count got t) (hn : n ≤ t.stream.unread.length) :
    Serving s offset size (count + n) got
      { t with
        lent := Bytes.write (offset + count) (Bytes.padded t.stream.cursor n t.stream.window) t.lent
        stream := { t.stream with cursor := t.stream.cursor + n } } where
  supplied := h.supplied.of_alike .placed rfl rfl rfl
  assembled := h.assembled.copied hn

/-- A read that handed out as much as it asked for is done. -/
theorem served (h : Serving s offset size size got t) : Served s offset size size t := by
  have hcount := h.assembled.count_le
  have hlength : (s.stream.unread ++ got).length = s.stream.unread.length + got.length :=
    List.length_append
  have hfull : (s.stream.readDemand size).need ≤ got.length := by
    show size - s.stream.unread.length ≤ got.length
    omega
  obtain ⟨calls, hcalled, hsupply⟩ := h.supplied.full hfull
  exact ⟨calls, got, hcalled, hsupply, h.supplied.next_eq, h.assembled, by omega⟩

section Used

variable (h : Serving s offset size count got t) (hcount : count < size)
  (hused : t.stream.unread.length = 0)
include h hcount hused

/-- Where the window is used up, the source is asked for what is left to read. -/
theorem need_sub : (s.stream.readDemand size).need - got.length = size - count := by
  have hwhole := h.assembled.count_eq hused
  rw [List.length_append] at hwhole
  show size - s.stream.unread.length - got.length = size - count
  omega

theorem length_lt_need : got.length < (s.stream.readDemand size).need := by
  have hleft := h.need_sub hcount hused
  omega

variable (hasked : asked = max (size - count) s.stream.maxChunk)
  (hu : Stream.Replied source target asked reply t u)
include hasked hu

/-- With a reply that has no data, the read is done. -/
theorem short (htarget : target.Room asked t) (hreply : reply.data = []) :
    Served s offset size count u := by
  have hwhole := h.assembled.count_eq hused
  have hput := (hu.put htarget).1
  rw [hreply, Stream.Target.put_nil htarget] at hput
  obtain ⟨calls, hcalled, hsupply⟩ := h.supplied.short rfl ((h.need_sub hcount hused).symm ▸ hasked)
    (h.length_lt_need hcount hused) hu hreply
  have hempty : u.stream.filled ≤ u.stream.cursor := by
    rw [hu.filled]
    exact Nat.zero_le _
  refine ⟨calls, got, hcalled, hsupply, ?_, ⟨⟨?_, ?_⟩, h.assembled.count_le,
    hput.trans h.assembled.lent, ?_⟩, by omega⟩
  · rw [hu.next_eq, hreply]
    exact (Int.add_zero _).trans h.supplied.next_eq
  · rw [hu.cursor]
    exact Nat.zero_le _
  · rw [hu.filled]
    exact Nat.zero_le _
  · rw [Stream.unread_of_used hempty, ← h.assembled.unread, List.eq_nil_of_length_eq_zero hused]

theorem more (hreply : reply.data ≠ []) :
    s.Supplied (s.stream.readDemand size) (got ++ reply.data) u :=
  h.supplied.more rfl ((h.need_sub hcount hused).symm ▸ hasked) (h.length_lt_need hcount hused) hu
    hreply

end Used

end Serving

end Session

namespace Stream

variable {source : Source σ} {s t : Session (Recorded σ)} {offset count size : Nat} {got : Bytes}

/-- What comes of a turn of a read that handed out some bytes before. It gets none only if the read is
done. -/
def Turned (s : Session (Recorded σ)) (offset size count : Nat) (more : Option Nat)
    (t : Session (Recorded σ)) : Prop :=
  s.Disturbed t ∨ (more = none ∧ s.Served offset size count t) ∨
    ∃ n got, more = some n ∧ 0 < n ∧ n ≤ size - count ∧ s.Serving offset size (count + n) got t

section Programs

variable (hsource : ∀ request x data sums y, source.read request x = .ok (.chunk data sums) y →
    data.length ≤ request.size) (hs : s.stream.Ready) (hattempts : 0 < s.stream.attempts)
include hsource hs hattempts

/-- A fetch past the window. -/
theorem ends_fetchWith_turned (h : s.Serving offset size count got t) (hcount : count < size)
    (hroom : offset + size ≤ s.lent.length) (hused : t.stream.unread.length = 0)
    (hlarge : t.stream.maxChunk ≤ size - count) (nesting : Nat) :
    Ends (fetchWith source.recorded (seekNested source.recorded nesting) (.lent (offset + count))
        (size - count)) t
      (fun more u => Turned s offset size count more u) (fun _ u => s.Disturbed u) := by
  have halike := h.supplied.alike
  have hmaxChunk := halike.maxChunk
  have hasked : size - count = max (size - count) s.stream.maxChunk := by omega
  have htarget : (Target.lent (offset + count)).Room (size - count) t := by
    show offset + count + (size - count) ≤ t.lent.length
    rw [h.assembled.lent, Bytes.length_write, List.length_take]
    omega
  refine (ends_fetchWith_supplied (halike.ready hs) (halike.attempts ▸ hattempts) nesting _ _).mono
    (fun more u hu => ?_) (fun _ u hu => h.supplied.disturbed hu)
  obtain hdisturbed | ⟨reply, rfl, hu⟩ := hu
  · exact .inl (h.supplied.disturbed hdisturbed)
  by_cases hreply : reply.data = []
  · exact .inr (.inl ⟨if_pos hreply, h.short hcount hused hasked hu htarget hreply⟩)
  · exact .inr (.inr ⟨_, got ++ reply.data, if_neg hreply, List.length_pos_iff.mpr hreply,
      hu.length_le hsource, h.more hcount hused hasked hu hreply, h.assembled.fetched hused htarget hu⟩)

/-- A fetch into the window, out of which as much is handed out as is left to read. -/
theorem ends_refill_turned (h : s.Serving offset size count got t) (hcount : count < size)
    (hused : t.stream.unread.length = 0) (hsmall : size - count < t.stream.maxChunk) (nesting : Nat) :
    Ends (refill source.recorded (nesting + 1)) t
      (fun _ u => (u.stream.filled = 0 → Turned s offset size count none u) ∧
        (u.stream.filled ≠ 0 → Turned s offset size count (some (min u.stream.filled (size - count)))
          { u with
            lent := Bytes.write (offset + count)
              (Bytes.padded u.stream.cursor (min u.stream.filled (size - count)) u.stream.window) u.lent
            stream := { u.stream with
              cursor := u.stream.cursor + min u.stream.filled (size - count) } }))
      (fun _ u => s.Disturbed u) := by
  have halike := h.supplied.alike
  have hmaxChunk := halike.maxChunk
  have hasked : t.stream.maxChunk = max (size - count) s.stream.maxChunk := by omega
  have hempty : t.stream.filled ≤ t.stream.cursor := by
    rw [length_unread] at hused
    omega
  refine (ends_refill_supplied (halike.ready hs) (halike.attempts ▸ hattempts) hempty nesting).mono
    (fun _ v hv => ?_) (fun _ u hu => h.supplied.disturbed hu)
  obtain hdisturbed | ⟨reply, u, hu, rfl⟩ := hv
  · have hdisturbed := h.supplied.disturbed hdisturbed
    exact ⟨fun _ => .inl hdisturbed, fun _ => .inl (hdisturbed.of_alike .placed rfl)⟩
  refine ⟨fun hnone => ?_, fun hsome => ?_⟩
  · have hreply : reply.data = [] := List.eq_nil_of_length_eq_zero hnone
    have hsame : { u with stream := { u.stream with filled := reply.data.length } } = u := by
      rw [hreply, List.length_nil, ← hu.filled]
    rw [hsame]
    exact .inr (.inl ⟨rfl, h.short hcount hused hasked hu trivial hreply⟩)
  · have hreply : reply.data ≠ [] := fun hreply => hsome (congrArg List.length hreply)
    have hle : reply.data.length ≤ u.stream.maxChunk :=
      Nat.le_trans (hu.length_le hsource) (Nat.le_of_eq hu.called.stream.maxChunk.symm)
    have hfilled : s.Serving offset size count (got ++ reply.data)
        { u with stream := { u.stream with filled := reply.data.length } } :=
      ⟨(h.more hcount hused hasked hu hreply).of_alike .placed rfl rfl rfl,
        h.assembled.filled hused hu hle⟩
    have hunread := length_unread { u.stream with filled := reply.data.length }
    have hcursor := hu.cursor
    refine .inr (.inr ⟨_, _, rfl, ?_, Nat.min_le_right _ _, hfilled.copied ?_⟩)
    · exact Nat.lt_min.mpr ⟨List.length_pos_iff.mpr hreply, by omega⟩
    · rw [hunread, hcursor]
      exact Nat.min_le_left _ _

/-- A single read hands out some bytes. It finds none only where the source supplies no more. -/
theorem ends_readOnce_turned (hchunk : s.stream.maxChunk < Word.count)
    (h : s.Serving offset size count got t) (hcount : count < size)
    (hroom : offset + size ≤ s.lent.length) :
    Ends (readOnce source.recorded (offset + count) (size - count)) t
      (fun more u => Turned s offset size count more u) (fun _ u => s.Disturbed u) := by
  have hmaxChunk := h.supplied.alike.maxChunk
  simp only [readOnce, ends_bind, ends_getStream, ends_ite, ends_pure, Stream.ends_copy,
    Stream.ends_fill, Stream.ends_fetchLent]
  rw [h.assembled.balanced.available_eq (hmaxChunk ▸ hchunk)]
  refine ⟨fun hused => ⟨fun hlarge => ?past, fun hsmall => ?through⟩, fun hunused => ?window⟩
  case past => exact ends_fetchWith_turned hsource hs hattempts h hcount hroom hused hlarge _
  case through =>
    exact ends_refill_turned hsource hs hattempts h hcount hused (Nat.lt_of_not_le hsmall) _
  case window =>
    exact .inr (.inr ⟨_, got, rfl, by omega, Nat.min_le_right _ _, h.copied (Nat.min_le_left _ _)⟩)

/-- Reading up to a size hands out all that there is of it. -/
theorem ends_readUpTo_served (hchunk : s.stream.maxChunk < Word.count) (hbalanced : s.stream.Balanced)
    (hsize : 0 < size) (hroom : offset + size ≤ s.lent.length) :
    Ends (readUpTo source.recorded size offset size) s
      (fun count t => s.Disturbed t ∨ s.Served offset size count t) (fun _ t => s.Disturbed t) := by
  refine Stream.ends_readUpTo_of_turns
    (I := fun fuel count t => s.Disturbed t ∨
      count < size ∧ size - count ≤ fuel ∧ ∃ got, s.Serving offset size count got t)
    ?spent ?turn (.inr ⟨hsize, Nat.le_refl _, [], .start hbalanced (by omega)⟩)
  case spent =>
    intro count t ht
    exact .inl (ht.resolve_right fun hserving => by omega)
  case turn =>
    intro fuel count t ht
    obtain hdisturbed | ⟨hcount, hfuel, got, hserving⟩ := ht
    · refine (keeps_disturbed hs (fun _ ho => keeps_readOnce source.respects_calls ho _ _) t
        hdisturbed).mono (fun more u hu => ?_) (fun _ _ hu => hu)
      exact ⟨fun _ => .inl hu, fun _ _ => ⟨fun _ => .inl hu, fun _ => .inl hu⟩⟩
    · refine (ends_readOnce_turned hsource hs hattempts hchunk hserving hcount hroom).mono
        (fun more u hu => ?_) (fun _ _ hu => hu)
      obtain hdisturbed | ⟨rfl, hserved⟩ | ⟨n, got, rfl, hpos, hle, hserving⟩ := hu
      · exact ⟨fun _ => .inl hdisturbed, fun _ _ => ⟨fun _ => .inl hdisturbed, fun _ => .inl hdisturbed⟩⟩
      · exact ⟨fun _ => .inr hserved, nofun⟩
      · refine ⟨nofun, fun m hm => ?_⟩
        cases hm
        refine ⟨fun hfull => .inr ?_, fun hless => .inr ⟨hless, by omega, got, hserving⟩⟩
        obtain hall : count + n = size := by omega
        rw [hall] at hserving ⊢
        exact hserving.served

end Programs

end Stream

/-- What a read of so many bytes into a buffer gives for bytes that the source supplied by some calls, and
what it leaves. -/
structure Session.ReadFrom (s : Session (Recorded σ)) (buffer : Bytes) (offset size : Nat)
    (calls : List (Call σ)) (got : Bytes) (outcome : Outcome) (t : Session (Recorded σ)) : Prop where
  supply : (s.stream.readDemand size).Supply calls got
  outcome_eq : outcome = .count (if s.stream.unread ++ got = [] then -1
    else (min size (s.stream.unread ++ got).length : Nat))
  position_eq : t.stream.position =
    s.stream.position + (min size (s.stream.unread ++ got).length : Nat)
  lent_eq : t.lent = Bytes.write offset ((s.stream.unread ++ got).take size) buffer
  /-- Outside of the range the buffer is as it was. -/
  outside : ∀ i, i < offset ∨ offset + size ≤ i → t.lent[i]? = buffer[i]?
  unread_eq : t.stream.unread = (s.stream.unread ++ got).drop size
  available_eq : t.stream.available = t.stream.unread.length
  /-- There is less than was asked for only where the last reply had no data. -/
  ended : (s.stream.unread ++ got).length < size →
    ∃ before x request reply, calls = before ++ [.read x request (.ok reply)] ∧ reply.data = []
  /-- What is left over came with the last reply. -/
  rest : calls ≠ [] → ∃ before x request reply,
    calls = before ++ [.read x request (.ok reply)] ∧ t.stream.unread <:+ reply.data

/-- A read that is done says so. -/
theorem Session.Served.readFrom {s t : Session (Recorded σ)} {buffer : Bytes} {offset size count : Nat}
    (h : Served { s with lent := buffer } offset size count t) (hbalanced : s.stream.Balanced)
    (hchunk : s.stream.maxChunk < Word.count) (hsize : 0 < size)
    (hroom : offset + size ≤ buffer.length) :
    ∃ calls got, s.Called calls t ∧
      s.ReadFrom buffer offset size calls got
        (.count ((if count = 0 then none else some count).elim (-1) fun n => (n : Int))) t := by
  obtain ⟨calls, got, hcalled, hsupply, hnext, hassembled, hcount⟩ := h
  have hsupply : (s.stream.readDemand size).Supply calls got := hsupply
  have hcount : count = min size (s.stream.unread ++ got).length := hcount
  have hlent : t.lent = Bytes.write offset ((s.stream.unread ++ got).take count) buffer :=
    hassembled.lent
  have hunread : t.stream.unread = (s.stream.unread ++ got).drop count := hassembled.unread
  rw [hcount, Bytes.take_min_length] at hlent
  rw [hcount, Bytes.drop_min_length] at hunread
  have hneed : (s.stream.readDemand size).need = size - s.stream.unread.length := rfl
  have hlength : (s.stream.unread ++ got).length = s.stream.unread.length + got.length :=
    List.length_append
  refine ⟨calls, got, ⟨hcalled.stream, hcalled.calls_eq, hcalled.sums⟩, hsupply, ?outcome, ?position,
    hlent, ?outside, hunread, hassembled.balanced.available_eq (hcalled.stream.maxChunk ▸ hchunk),
    ?ended, ?rest⟩
  case outcome =>
    by_cases hnone : s.stream.unread ++ got = []
    · have hzero : count = 0 := by rw [hcount, hnone, List.length_nil, Nat.min_zero]
      rw [if_pos hnone, if_pos hzero]
      rfl
    · have hpos := List.length_pos_iff.mpr hnone
      rw [if_neg hnone, if_neg (by omega), hcount]
      rfl
  case position =>
    have hnext : t.stream.next = s.stream.next + got.length := hnext
    rw [hassembled.balanced.position_eq_sub, hbalanced.position_eq_sub, hnext, hunread,
      List.length_drop]
    omega
  case outside =>
    intro i hi
    have htaken : ((s.stream.unread ++ got).take size).length ≤ size := List.length_take_le _ _
    rw [hlent, Bytes.getElem?_write_of_outside (by omega) (by omega)]
  case ended =>
    intro hless
    obtain ⟨before, x, request, reply, hcalls, -, hended⟩ := hsupply.last (by omega)
    exact ⟨before, x, request, reply, hcalls, hended (by omega)⟩
  case rest =>
    intro hcalls
    have hpos : 0 < (s.stream.readDemand size).need := Nat.pos_of_ne_zero fun hzero =>
      hcalls (hsupply.eq_nil hzero)
    obtain ⟨before, x, request, reply, hcalls, hrest, -⟩ := hsupply.last hpos
    refine ⟨before, x, request, reply, hcalls, ?_⟩
    rw [hunread, List.drop_append, List.drop_of_length_le (by omega), List.nil_append, ← hneed]
    exact hrest

/-- Whatever was done with a stream, and however its source changed on the way, a read of a range of a
buffer does this, as long as none of the replies that it gets fails. It hands out the bytes left in the
window and then those of the replies, in order, and nothing else is written. It gives less than was
asked for only where the last reply had no data, after which it asks for no more, and what is left over
of the last reply stays in the window. It doesn't fail by itself. -/
theorem read_assembles {source : Source σ} {checksum : Option Algorithm} {options : Options}
    {stream : Stream} {x : σ} {s : Session (Recorded σ)} {buffer : Bytes} {offset size : Nat}
    (hsource : ∀ request y data sums z, source.read request y = .ok (.chunk data sums) z →
      data.length ≤ request.size)
    (hstream : Stream.ofOptions? checksum options = .ok stream)
    (hchunk : options.maxChunk < Word.count)
    (hs : Session.Reaches source.recorded (fun _ => True) (fun x y => y.calls = x.calls)
      { stream, source := { state := x } } s)
    (hbalanced : s.stream.Balanced) (hsize : 0 < size) (hroom : offset + size ≤ buffer.length) :
    Ends ((Operation.read buffer offset size).perform source.recorded) s
      (fun outcome t => ∃ calls, t.source.calls = s.source.calls ++ calls ∧
        (s.stream.Troubled s.stream.sums calls ∨
          ∃ got, s.ReadFrom buffer offset size calls got outcome t))
      (fun _ t => ∃ calls, t.source.calls = s.source.calls ++ calls ∧
        s.stream.Troubled s.stream.sums calls) := by
  obtain ⟨hready, hattempts, hmaxChunk⟩ := hs.built hstream
  rw [← hmaxChunk] at hchunk
  simp only [Operation.perform, ends_bind, ends_pure, Operation.ends_lend, Stream.ends_seekable_read,
    Stream.read, ends_get, ends_ite, ends_throw]
  refine ⟨fun houtside => absurd hroom (by omega), fun _ => ⟨fun hzero => absurd hsize (by omega),
    fun _ => ?_⟩⟩
  refine (Stream.ends_readUpTo_served (s := { s with lent := buffer }) hsource hready hattempts hchunk
    hbalanced hsize hroom).mono (fun count t ht => ?_) (fun e t ht => ht.trouble)
  obtain hdisturbed | hserved := ht
  · obtain ⟨calls, hcalls, htroubled⟩ := hdisturbed.trouble
    exact ⟨calls, hcalls, .inl htroubled⟩
  · obtain ⟨calls, got, hcalled, hread⟩ := hserved.readFrom hbalanced hchunk hsize hroom
    exact ⟨calls, hcalled.calls_eq, .inr ⟨got, hread⟩⟩

/-- Two bytes are left in the window. The next two come past it, and the last two through it, with one
byte left over. -/
theorem read_assembles_three_parts :
    let sum := fun data => Stored.store (Algorithm.crc32.sum data)
    let script : Script :=
      { align := 4, switches := [],
        replies := [.gives [1, 2, 3] (sum [1, 2, 3]), .gives [4, 5] (sum [4, 5]),
          .gives [6, 7, 8] (sum [6, 7, 8])] }
    ∃ stream t, Stream.ofOptions? (some .crc32) { maxChunk := 4 } = .ok stream ∧
      Operation.readByte.after Script.source.recorded { stream, source := { state := script } } = t ∧
      t.stream.Balanced ∧
      Ends ((Operation.read (Bytes.zeros 8) 1 6).perform Script.source.recorded) t
        (fun outcome u => outcome = .count 6 ∧ u.lent = [0, 2, 3, 4, 5, 6, 7, 0] ∧
          u.stream.position = 7 ∧ u.stream.unread = [8] ∧
          ∃ calls got, u.source.calls = t.source.calls ++ calls ∧ calls.length = 2 ∧
            t.ReadFrom (Bytes.zeros 8) 1 6 calls got outcome u)
        (fun _ _ => False) := by
  intro sum script
  have hstream : Stream.ofOptions? (some .crc32) { maxChunk := 4 } = .ok _ := rfl
  refine ⟨_, _, hstream, rfl, ?_⟩
  generalize ht : Operation.readByte.after Script.source.recorded _ = t
  have hbalanced : t.stream.Balanced := by
    rw [← ht]
    exact ⟨by decide +kernel, by decide +kernel⟩
  have hruns : Ends ((Operation.read (Bytes.zeros 8) 1 6).perform Script.source.recorded) t
      (fun outcome u => outcome = .count 6 ∧ u.lent = [0, 2, 3, 4, 5, 6, 7, 0] ∧
        u.stream.position = 7 ∧ u.stream.unread = [8] ∧
        (u.source.calls.drop t.source.calls.length).length = 2 ∧
        ¬ t.stream.Troubled t.stream.sums (u.source.calls.drop t.source.calls.length))
      (fun _ _ => False) := by
    rw [← ht]
    decide +kernel
  have hassembles := @read_assembles _ Script.source _ _ _ script t (Bytes.zeros 8) 1 6
    (fun _ _ _ _ _ hread => (Script.bounded_source _ _ _ _ _ hread).1) hstream (by decide)
    (by rw [← ht]; exact .perform .readByte .refl trivial) hbalanced (by decide) (by decide)
  refine ⟨hbalanced, (hruns.and hassembles).mono (fun outcome u hu => ?_) (fun _ _ hu => hu.1)⟩
  obtain ⟨⟨houtcome, hlent, hposition, hunread, hlength, hsound⟩, calls, hcalls, hread⟩ := hu
  rw [hcalls, List.drop_left] at hlength hsound
  obtain ⟨got, hread⟩ := hread.resolve_left hsound
  exact ⟨houtcome, hlent, hposition, hunread, calls, got, hcalls, hlength, hread⟩

end ChunkGuard
