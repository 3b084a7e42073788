import ChunkGuard.Proofs.Initial
import ChunkGuard.Proofs.Provenance

/-!
# What is known of the bytes that a stream hands out

Bytes come into the window and into lent buffers only by calls, so whatever is known of the bytes
that calls bring, and isn't lost by calls further on (`Evidence`), is known of every byte in the
window (`Session.Backed`) and of every byte that a read hands out. The lemmas follow the programs of
a stream once for all such knowledge. They also say where a stream stops: where it was sent, or
where the replica read now has no more data (`Session.Ended`).
-/

namespace ChunkGuard

open Session

/-- What `B` says of a byte at an offset holds of the bytes that sessions with `P` bring, and calls
past the offset leave it true. -/
structure Evidence (checksum : Option Algorithm) (chunk : Nat)
    (B : Nat → UInt8 → Recorded Replicas → Prop) (P : Session (Recorded Replicas) → Prop) :
    Prop where
  brought : ∀ {s r offset byte}, P s → BroughtSince checksum chunk offset byte s r →
    B offset byte r
  since : ∀ {x y offset next byte}, B offset byte x → Recorded.Since next x y → offset < next →
    B offset byte y
  kept : ∀ {s t}, P s → s.Kept Recorded.Grown t → P t

/-- What `B` says holds of every byte of the window at its offset, and the stream is somewhere in
the window. -/
structure Session.Backed (B : Nat → UInt8 → Recorded Replicas → Prop) (checksum : Option Algorithm)
    (chunk : Nat) (s : Session (Recorded Replicas)) : Prop where
  matched : s.Matched checksum chunk
  room : s.lent.length < Word.half
  cursor_le : s.stream.cursor ≤ s.stream.filled
  filled_le : (s.stream.filled : Int) ≤ s.stream.next
  filled_le_chunk : s.stream.filled ≤ chunk
  window : ∀ i < s.stream.filled, ∃ byte, s.stream.window[i]? = some byte ∧
    B (s.stream.next.toNat - s.stream.filled + i) byte s.source

/-- The window is used up, and the replica read now has no data at the position. -/
structure Session.Ended (s : Session (Recorded Replicas)) : Prop where
  used : s.stream.filled ≤ s.stream.cursor
  size_le : (s.source.state.size : Int) ≤ s.stream.position

/-- What is built as it was, with the same source and log, is as the source left it. -/
theorem Session.Kept.of_same {s t : Session (Recorded Replicas)} (hstream : s.stream.Alike t.stream)
    (hsource : t.source = s.source) (hevents : t.events = s.events) :
    s.Kept Recorded.Grown t :=
  Kept.of_alike (.refl Replicas.respects_grown s) hstream hsource hevents

namespace Session.Backed

variable {checksum : Option Algorithm} {chunk : Nat} {B : Nat → UInt8 → Recorded Replicas → Prop}
  {P : Session (Recorded Replicas) → Prop} {s t : Session (Recorded Replicas)}

theorem position_nonneg (h : s.Backed B checksum chunk) : 0 ≤ s.stream.position := by
  have hfilled := h.filled_le
  rw [Stream.position]
  omega

theorem position_of_used (h : s.Backed B checksum chunk)
    (hused : s.stream.filled ≤ s.stream.cursor) : s.stream.position = s.stream.next := by
  have hcursor := h.cursor_le
  rw [Stream.position]
  omega

/-- The number of bytes left in the window doesn't wrap. -/
theorem available_eq (h : s.Backed B checksum chunk) :
    s.stream.available = s.stream.filled - s.stream.cursor := by
  have hcursor := h.cursor_le
  have hchunk := h.filled_le_chunk
  have hhalf : Word.half < Word.count := by decide
  have hlimit := h.matched.chunk_lt
  rw [Stream.available_eq_mod hcursor, Nat.mod_eq_of_lt (by omega)]

/-- An empty window is backed wherever the stream is. -/
theorem of_empty (hmatched : s.Matched checksum chunk) (hroom : s.lent.length < Word.half)
    (hfilled : s.stream.filled = 0) (hcursor : s.stream.cursor = 0)
    (hnext : 0 ≤ s.stream.next) : s.Backed B checksum chunk where
  matched := hmatched
  room := hroom
  cursor_le := by omega
  filled_le := by omega
  filled_le_chunk := by omega
  window i hi := by omega

/-- Of the bytes in the window more may be known. -/
theorem of_window (h : s.Backed B checksum chunk) {C : Nat → UInt8 → Recorded Replicas → Prop}
    (hC : ∀ i < s.stream.filled, ∀ byte, s.stream.window[i]? = some byte →
      B (s.stream.next.toNat - s.stream.filled + i) byte s.source →
      C (s.stream.next.toNat - s.stream.filled + i) byte s.source) :
    s.Backed C checksum chunk where
  matched := h.matched
  room := h.room
  cursor_le := h.cursor_le
  filled_le := h.filled_le
  filled_le_chunk := h.filled_le_chunk
  window i hi := by
    obtain ⟨byte, hbyte, hbacked⟩ := h.window i hi
    exact ⟨byte, hbyte, hC i hi byte hbyte hbacked⟩

/-- Moving in the window keeps it backed. -/
theorem moved (h : s.Backed B checksum chunk) {n : Nat} (hn : n ≤ s.stream.filled) :
    Backed B checksum chunk { s with stream := { s.stream with cursor := n } } :=
  ⟨h.matched.alike .placed rfl, h.room, hn, h.filled_le,
    h.filled_le_chunk, h.window⟩

/-- Another buffer may be lent. -/
theorem lending (h : s.Backed B checksum chunk) {buffer : Bytes}
    (hbuffer : buffer.length < Word.half) : Backed B checksum chunk { s with lent := buffer } :=
  ⟨h.matched.alike (.refl _) rfl, hbuffer, h.cursor_le, h.filled_le, h.filled_le_chunk, h.window⟩

/-! ## Filling the window -/

/-- A fetch where the stream is. -/
theorem ends_fetchWith (h : s.Backed B checksum chunk) (target : Stream.Target) {size : Nat}
    (hroom : target.Room size s) (hsize : 0 < size) (hfits : size + chunk ≤ Word.count)
    (nesting : Nat) :
    Ends (Stream.fetchWith Replicas.source.recorded
        (Stream.seekNested Replicas.source.recorded nesting) target size) s
      (Stream.Landed checksum chunk target size s.stream.next.toNat s.cleared)
      (fun _ => Stream.Fetching target s.stream.next.toNat s.stream.next.toNat s.cleared) := by
  rw [Stream.ends_fetchWith]
  have hfilled := h.filled_le
  have hnext : s.cleared.stream.next = s.stream.next.toNat := by
    show s.stream.next = _
    omega
  have hcleared : s.cleared.Matched checksum chunk :=
    h.matched.alike s.alike_cleared rfl
  have hroom : target.Room size s.cleared := by
    cases target <;> exact hroom
  exact Stream.Fetching.ends_attempt hcleared hfits
    ⟨.refl Replicas.respects_grown _, rfl, rfl, hnext, .refl _, .refl _ _⟩ hroom hsize nesting _

theorem kept_cleared (s : Session (Recorded Replicas)) : s.Kept Recorded.Grown s.cleared :=
  .of_same s.alike_cleared rfl rfl

/-- Bytes that a fetch brought have evidence. -/
theorem backed_of_brought (hB : Evidence checksum chunk B P) (hP : P s) {start n : Nat}
    {byteAt : Nat → Option UInt8} (h : ∀ i < n, ∃ byte, byteAt i = some byte ∧
      BroughtSince checksum chunk (start + i) byte s.cleared t.source) :
    ∀ i < n, ∃ byte, byteAt i = some byte ∧ B (start + i) byte t.source := by
  intro i hi
  obtain ⟨byte, hbyte, hbrought⟩ := h i hi
  exact ⟨byte, hbyte, hB.brought (hB.kept hP (kept_cleared s)) hbrought⟩

/-- The window was filled, or is empty, and the stream is where it was. -/
structure Filled (B : Nat → UInt8 → Recorded Replicas → Prop) (checksum : Option Algorithm)
    (chunk : Nat) (s t : Session (Recorded Replicas)) : Prop where
  backed : t.Backed B checksum chunk
  cursor : t.stream.cursor = 0
  lent : t.lent = s.lent
  position : t.stream.position = s.stream.position
  since : Recorded.Since s.stream.position.toNat s.source t.source
  kept : s.Kept Recorded.Grown t

/-- A fetch into the window fills it with what was brought. -/
theorem filled_of_fetching (h : s.Backed B checksum chunk)
    (hused : s.stream.filled ≤ s.stream.cursor) {n : Nat} (hn : n ≤ chunk)
    (ht : Stream.Fetching .window s.stream.next.toNat (s.stream.next.toNat + n) s.cleared t)
    (hbytes : ∀ i < n, ∃ byte, t.stream.window[i]? = some byte ∧
      B (s.stream.next.toNat + i) byte t.source) :
    Filled B checksum chunk s { t with stream := { t.stream with filled := n } } := by
  have hposition := h.position_of_used hused
  have hnonneg := h.position_nonneg
  have hlent : t.lent = s.lent := ht.spares.2
  have hcursor := ht.cursor
  have hnext := ht.next_eq
  have hstart : t.stream.next.toNat - n = s.stream.next.toNat := by omega
  have hkept := (kept_cleared s).trans Replicas.respects_grown ht.kept
  have hmatched := h.matched.grown hkept
  refine ⟨⟨hmatched.alike .placed rfl, ?_, ?_, ?_, hn, fun i hi => ?_⟩,
    hcursor, hlent, ?_, ?_, hkept.of_alike .placed rfl rfl⟩
  · show t.lent.length < _
    rw [hlent]
    exact h.room
  · show t.stream.cursor ≤ n
    omega
  · show (n : Int) ≤ t.stream.next
    omega
  · show ∃ byte, _ ∧ B (t.stream.next.toNat - n + i) byte t.source
    rw [hstart]
    exact hbytes i hi
  · rw [hposition, Stream.position]
    show t.stream.next - ((n : Int) - t.stream.cursor) = _
    omega
  · rw [hposition]
    exact ht.since

/-- Filling a window that is used up leaves it backed. It stays empty where the data has ended, or
if it fails. -/
theorem ends_refill (hB : Evidence checksum chunk B P) (hP : P s) (h : s.Backed B checksum chunk)
    (hused : s.stream.filled ≤ s.stream.cursor) (nesting : Nat) :
    Ends (Stream.refill Replicas.source.recorded (nesting + 1)) s
      (fun _ t => Filled B checksum chunk s t ∧ (t.stream.filled = 0 → t.Ended))
      (fun _ t => Filled B checksum chunk s t ∧ t.stream.filled = 0) := by
  have hpos : 0 < s.stream.maxChunk := h.matched.maxChunk_eq ▸ h.matched.chunk_pos
  have hfits : s.stream.maxChunk + chunk ≤ Word.count := by
    have hhalf : Word.half + Word.half = Word.count := rfl
    have hchunk := h.matched.maxChunk_eq
    have hlimit := h.matched.chunk_lt
    omega
  rw [Stream.ends_refill_succ]
  refine ⟨fun hunused => absurd hunused (Nat.not_lt_of_le hused), fun _ => ?_⟩
  refine (h.ends_fetchWith .window trivial hpos hfits nesting).mono (fun count t ht => ?_)
    (fun _ t ht => ⟨?_, ht.filled⟩)
  · cases ht with
    | nothing _ ht hend =>
        have hfilled := h.filled_of_fetching hused (Nat.zero_le _) ht fun i hi =>
          absurd hi (Nat.not_lt_zero i)
        refine ⟨hfilled, fun _ => ⟨Nat.zero_le _, ?_⟩⟩
        have hnonneg := h.position_nonneg
        rw [h.position_of_used hused] at hnonneg
        have hsize : (t.source.state.size : Int) ≤ s.stream.next := by omega
        have hposition := hfilled.position.trans (h.position_of_used hused)
        exact Int.le_trans hsize (Int.le_of_eq hposition.symm)
    | bytes n _ hn hle ht hbytes =>
        refine ⟨h.filled_of_fetching hused (h.matched.maxChunk_eq ▸ hle) ht
          (backed_of_brought hB hP hbytes), fun hzero => ?_⟩
        exact absurd hzero (Nat.ne_of_gt hn)
  · have hsame : { t with stream := { t.stream with filled := 0 } } = t := by
      rw [← ht.filled]
    rw [← hsame]
    exact h.filled_of_fetching hused (Nat.zero_le _) ht fun i hi => absurd hi (Nat.not_lt_zero i)

/-! ## Seeking -/

/-- Wherever the stream went, the window is backed, and the buffer is as it was. -/
structure Sought (B : Nat → UInt8 → Recorded Replicas → Prop) (checksum : Option Algorithm)
    (chunk : Nat) (s t : Session (Recorded Replicas)) : Prop where
  backed : t.Backed B checksum chunk
  lent : t.lent = s.lent
  kept : s.Kept Recorded.Grown t

theorem Sought.refl (h : s.Backed B checksum chunk) : Sought B checksum chunk s s :=
  ⟨h, rfl, .refl Replicas.respects_grown s⟩

theorem Sought.trans {u : Session (Recorded Replicas)} (h : Sought B checksum chunk s t)
    (h' : Sought B checksum chunk t u) : Sought B checksum chunk s u :=
  ⟨h'.backed, h'.lent.trans h.lent, h.kept.trans Replicas.respects_grown h'.kept⟩

theorem Filled.sought (h : Filled B checksum chunk s t) : Sought B checksum chunk s t :=
  ⟨h.backed, h.lent, h.kept⟩

theorem Sought.discarded (h : Sought B checksum chunk s t) (size : Int) :
    Sought B checksum chunk s (t.discarded size) :=
  h.trans ⟨h.backed.moved (t.cursor_discarded_le size), rfl, .of_same .placed rfl rfl⟩

/-- Discarding goes as far as asked, or to where the data has ended. -/
theorem ends_discardWith (hB : Evidence checksum chunk B P) (hP : P s)
    (h : s.Backed B checksum chunk) (nesting fuel : Nat) (size : Int) :
    Ends (Stream.discardWith (Stream.refill Replicas.source.recorded (nesting + 1)) fuel size) s
      (fun _ t => Sought B checksum chunk s t ∧
        (t.stream.position = s.stream.position + max size 0 ∨ t.Ended))
      (fun _ t => Sought B checksum chunk s t) := by
  -- Where the stream is and what is left to discard keep adding up to the same position.
  refine Stream.ends_discardWith_of_turns
    (I := fun _ left t => Sought B checksum chunk s t ∧
      t.stream.position + max left 0 = s.stream.position + max size 0)
    (J := fun _ left t => Sought B checksum chunk s t ∧ 0 < left ∧
      t.stream.cursor ≤ t.stream.filled ∧
      t.stream.position + max left 0 = s.stream.position + max size 0)
    (fun _ left t ht hleft => ⟨ht.1, .inl (by omega)⟩) (fun _ _ ht _ => ht.1)
    (fun _ left t ht hleft _ => ⟨ht.1, hleft, ht.1.backed.cursor_le, ht.2⟩) ?used ?step
    ⟨.refl h, rfl⟩
  case used =>
    rintro fuel left t ⟨ht, hposition⟩ hleft hused
    refine (ht.backed.ends_refill hB (hB.kept hP ht.kept) hused nesting).mono (fun _ u hu => ?_)
      (fun _ u hu => ht.trans hu.1.sought)
    obtain ⟨hu, hend⟩ := hu
    exact ⟨fun hempty => ⟨ht.trans hu.sought, .inr (hend hempty)⟩, fun _ =>
      ⟨ht.trans hu.sought, hleft, hu.backed.cursor_le, hu.position ▸ hposition⟩⟩
  case step =>
    rintro fuel left t ⟨ht, hleft, hcursor, hposition⟩
    have hafter := t.position_discarded (Int.le_of_lt hleft)
    exact ⟨ht.discarded left, by omega⟩

/-- Seeking goes to the position, or in its chunk to where the data has ended. -/
theorem ends_seekNested (hB : Evidence checksum chunk B P) (hP : P s)
    (h : s.Backed B checksum chunk) (nesting : Nat) (position : Int) :
    Ends (Stream.seekNested Replicas.source.recorded (nesting + 1) position) s
      (fun _ t => Sought B checksum chunk s t ∧ (position < 0 → t = s) ∧
        (0 ≤ position → t.stream.position = position ∨ t.Ended))
      (fun _ t => Sought B checksum chunk s t) := by
  rw [Stream.seekNested, Stream.ends_seekWith]
  refine ⟨fun hneg => ⟨.refl h, fun _ => rfl, fun hpos => absurd hneg (Int.not_lt.mpr hpos)⟩,
    fun hpos => ⟨fun hwindow => ?_, fun _ => ?_⟩⟩
  · refine ⟨⟨h.moved (by omega), rfl, .of_same .placed rfl rfl⟩,
      fun hneg => absurd hneg hpos, fun _ => .inl ?_⟩
    rw [Stream.position]
    dsimp only
    omega
  obtain ⟨p, rfl⟩ : ∃ p : Nat, position = p := ⟨position.toNat, by omega⟩
  have hstart : Replicas.source.recorded.start s.source p = (p - p % chunk : Nat) := by
    show Replicas.start s.source.state p = _
    rw [Replicas.start, h.matched.chunk_eq, Chunk.start_natCast h.matched.chunk_lt]
  have halike := s.alike_jumped h.matched.ready (p - p % chunk : Nat)
  have hjump : Sought B checksum chunk s (s.jumped (p - p % chunk : Nat)) :=
    ⟨of_empty (h.matched.alike halike rfl) h.room rfl rfl (Int.natCast_nonneg _), rfl,
      .of_same halike rfl rfl⟩
  have hle := Nat.mod_le p chunk
  have hbegin : (s.jumped (p - p % chunk : Nat)).stream.position = (p - p % chunk : Nat) := by
    show ((p - p % chunk : Nat) : Int) - ((0 : Nat) - (0 : Nat) : Int) = _
    omega
  rw [hstart]
  refine ⟨fun _ => hjump, fun _ => ?_⟩
  refine (hjump.backed.ends_discardWith hB (hB.kept hP hjump.kept) nesting _ _).mono
    (fun _ t ht => ?_) (fun _ t ht => hjump.trans ht)
  refine ⟨hjump.trans ht.1, fun hneg => absurd hneg hpos, fun _ => ht.2.imp (fun hplace => ?_) id⟩
  rw [hplace, hbegin]
  omega

theorem ends_seek (hB : Evidence checksum chunk B P) (hP : P s) (h : s.Backed B checksum chunk)
    (position : Int) :
    Ends (Stream.seek Replicas.source.recorded position) s
      (fun _ t => Sought B checksum chunk s t ∧ (position < 0 → t = s) ∧
        (0 ≤ position → t.stream.position = position ∨ t.Ended))
      (fun _ t => Sought B checksum chunk s t) := by
  rw [Stream.ends_seek]
  exact h.ends_seekNested hB hP _ position

/-! ## Reading -/

/-- Reading a byte gives one with evidence from where the stream was, unless the data has ended. -/
theorem ends_readByte (hB : Evidence checksum chunk B P) (hP : P s)
    (h : s.Backed B checksum chunk) :
    Ends (Stream.readByte Replicas.source.recorded) s
      (fun byte t => Sought B checksum chunk s t ∧
        (∀ b ∈ byte, B s.stream.position.toNat b t.source) ∧ (byte = none → t.Ended))
      (fun _ t => Sought B checksum chunk s t) := by
  have hrest : ∀ t : Session (Recorded Replicas), Sought B checksum chunk s t →
      t.stream.position = s.stream.position → ¬ t.stream.filled ≤ t.stream.cursor →
      Sought B checksum chunk s
        { t with stream := { t.stream with cursor := t.stream.cursor + 1 } } ∧
        (∀ b ∈ some (t.stream.window.getD t.stream.cursor 0),
          B s.stream.position.toNat b t.source) ∧
        (some (t.stream.window.getD t.stream.cursor 0) = none →
          Ended { t with stream := { t.stream with cursor := t.stream.cursor + 1 } }) := by
    intro t ht hposition hunused
    refine ⟨ht.trans ⟨ht.backed.moved (by omega), rfl, .of_same .placed rfl rfl⟩, fun b hb => ?_,
      fun hnone => ?_⟩
    · obtain ⟨byte, hbyte, hbacked⟩ := ht.backed.window t.stream.cursor (by omega)
      rw [List.getD_eq_getElem?_getD, hbyte, Option.getD_some] at hb
      have hfilled := ht.backed.filled_le
      have hoffset : t.stream.next.toNat - t.stream.filled + t.stream.cursor =
          s.stream.position.toNat := by
        rw [← hposition, Stream.position]
        omega
      rw [← hoffset, ← Option.mem_some.mp hb]
      exact hbacked
    · cases hnone
  simp only [Stream.readByte, ends_bind, ends_getStream, ends_ite, ends_pure, ends_modifyStream,
    Stream.ends_fill]
  refine ⟨fun hused => ?_, fun hunused => ⟨fun hused => absurd hused hunused, fun _ => ?_⟩⟩
  · refine (h.ends_refill hB hP hused _).mono (fun _ t ht => ?_) (fun _ t ht => ht.1.sought)
    refine ⟨fun hnone => ⟨ht.1.sought, fun b hb => absurd hb (Option.not_mem_none b), fun _ => ?_⟩,
      hrest t ht.1.sought ht.1.position⟩
    have hcursor := ht.1.cursor
    exact ht.2 (by omega)
  · exact hrest s (.refl h) rfl hunused

/-- So many bytes were handed out to the lent buffer from an offset on, each with evidence from where
the stream was. Nothing before them was touched, and every call since then was from there on. -/
structure Delivered (B : Nat → UInt8 → Recorded Replicas → Prop) (checksum : Option Algorithm)
    (chunk offset count : Nat) (s t : Session (Recorded Replicas)) : Prop where
  backed : t.Backed B checksum chunk
  position : t.stream.position = s.stream.position + count
  length : t.lent.length = s.lent.length
  before : ∀ i < offset, t.lent[i]? = s.lent[i]?
  bytes : ∀ i < count, ∃ byte, t.lent[offset + i]? = some byte ∧
    B (s.stream.position.toNat + i) byte t.source
  since : Recorded.Since s.stream.position.toNat s.source t.source
  kept : s.Kept Recorded.Grown t

namespace Delivered

variable {offset n m : Nat} {u : Session (Recorded Replicas)}

theorem refl (h : s.Backed B checksum chunk) (offset : Nat) :
    Delivered B checksum chunk offset 0 s s :=
  ⟨h, (Int.add_zero _).symm, rfl, fun _ _ => rfl, fun i hi => absurd hi (Nat.not_lt_zero i),
    .refl _, .refl Replicas.respects_grown s⟩

/-- Bytes handed out one after the other are handed out together. -/
theorem trans (h : Delivered B checksum chunk offset n s t)
    (h' : Delivered B checksum chunk (offset + n) m t u) (hB : Evidence checksum chunk B P)
    (hs : s.Backed B checksum chunk) : Delivered B checksum chunk offset (n + m) s u := by
  have hnonneg := hs.position_nonneg
  have hposition := h.position
  have hstart : t.stream.position.toNat = s.stream.position.toNat + n := by omega
  refine ⟨h'.backed, ?_, h'.length.trans h.length, fun i hi => ?_, fun i hi => ?_,
    h.since.trans (h'.since.mono (by omega)), h.kept.trans Replicas.respects_grown h'.kept⟩
  · have hposition' := h'.position
    omega
  · exact (h'.before i (by omega)).trans (h.before i hi)
  · by_cases hfirst : i < n
    · obtain ⟨byte, hbyte, hbacked⟩ := h.bytes i hfirst
      refine ⟨byte, (h'.before (offset + i) (by omega)).trans hbyte, ?_⟩
      exact hB.since hbacked h'.since (by omega)
    · obtain ⟨byte, hbyte, hbacked⟩ := h'.bytes (i - n) (by omega)
      have hindex : offset + n + (i - n) = offset + i := by omega
      have hoffset : t.stream.position.toNat + (i - n) = s.stream.position.toNat + i := by omega
      rw [hindex] at hbyte
      rw [hoffset] at hbacked
      exact ⟨byte, hbyte, hbacked⟩

end Delivered

/-- Bytes of the window are handed out by copying them. -/
theorem copied (h : s.Backed B checksum chunk) {offset n : Nat}
    (hn : n ≤ s.stream.filled - s.stream.cursor) (hroom : offset + n ≤ s.lent.length) :
    Delivered B checksum chunk offset n s
      { s with
        lent := Bytes.write offset (Bytes.padded s.stream.cursor n s.stream.window) s.lent
        stream := { s.stream with cursor := s.stream.cursor + n } } := by
  have hcursor := h.cursor_le
  have hfilled := h.filled_le
  have hlength : (Bytes.padded s.stream.cursor n s.stream.window).length = n :=
    Bytes.length_padded _ _ _
  have hlent : (Bytes.write offset (Bytes.padded s.stream.cursor n s.stream.window)
      s.lent).length = s.lent.length := by
    rw [Bytes.length_write, hlength]
    omega
  have hmoved := h.moved (n := s.stream.cursor + n) (by omega)
  refine ⟨hmoved.lending (by rw [hlent]; exact h.room), ?_, hlent, fun i hi => ?_, fun i hi => ?_,
    .refl _, .of_same .placed rfl rfl⟩
  · rw [Stream.position, Stream.position]
    show s.stream.next - ((s.stream.filled : Int) - (s.stream.cursor + n : Nat)) = _
    omega
  · show (Bytes.write _ _ _)[i]? = _
    rw [Bytes.getElem?_write, if_pos hi, List.getD_eq_getElem?_getD,
      List.getElem?_eq_getElem (by omega), Option.getD_some]
  · obtain ⟨byte, hbyte, hbacked⟩ := h.window (s.stream.cursor + i) (by omega)
    have hoffset : s.stream.next.toNat - s.stream.filled + (s.stream.cursor + i) =
        s.stream.position.toNat + i := by
      rw [Stream.position]
      omega
    rw [hoffset] at hbacked
    refine ⟨byte, ?_, hbacked⟩
    show (Bytes.write _ _ _)[offset + i]? = _
    rw [Bytes.getElem?_write, hlength, if_neg (by omega), if_pos (by omega),
      Nat.add_sub_cancel_left, Bytes.padded, Bytes.getElem?_resize, if_pos hi,
      List.getD_eq_getElem?_getD, List.getElem?_drop, hbyte, Option.getD_some]

theorem Filled.delivered (h : Filled B checksum chunk s t) (offset : Nat) :
    Delivered B checksum chunk offset 0 s t :=
  ⟨h.backed, h.position.trans (Int.add_zero _).symm, congrArg List.length h.lent,
    fun _ _ => h.lent ▸ rfl, fun i hi => absurd hi (Nat.not_lt_zero i), h.since, h.kept⟩

/-- A fetch into the lent buffer hands out what was brought. -/
theorem delivered_of_fetching (h : s.Backed B checksum chunk)
    (hused : s.stream.filled ≤ s.stream.cursor) {offset n : Nat}
    (ht : Stream.Fetching (.lent offset) s.stream.next.toNat (s.stream.next.toNat + n) s.cleared t)
    (hbytes : ∀ i < n, ∃ byte, t.lent[offset + i]? = some byte ∧
      B (s.stream.next.toNat + i) byte t.source) :
    Delivered B checksum chunk offset n s t := by
  have hposition := h.position_of_used hused
  have hnonneg := h.position_nonneg
  obtain ⟨hlength, hbefore⟩ := ht.spares
  have hlength : t.lent.length = s.lent.length := hlength
  have hfilled := ht.filled
  have hcursor := ht.cursor
  have hnext := ht.next_eq
  have hkept := (kept_cleared s).trans Replicas.respects_grown ht.kept
  refine ⟨of_empty (h.matched.grown hkept) (hlength ▸ h.room) hfilled hcursor (by omega), ?_,
    hlength, hbefore, ?_, ?_, hkept⟩
  · rw [hposition, Stream.position]
    omega
  · rw [hposition]
    exact hbytes
  · rw [hposition]
    exact ht.since

/-- A single read hands out bytes of the window, which it may fill, or fetches past it. -/
theorem ends_readOnce (hB : Evidence checksum chunk B P) (hP : P s)
    (h : s.Backed B checksum chunk) {offset size : Nat} (hsize : 0 < size)
    (hroom : offset + size ≤ s.lent.length) :
    Ends (Stream.readOnce Replicas.source.recorded offset size) s
      (fun count t => Delivered B checksum chunk offset (count.getD 0) s t ∧
        (∀ n ∈ count, 0 < n ∧ n ≤ size) ∧ (count = none → t.Ended))
      (fun _ t => Delivered B checksum chunk offset 0 s t ∧ t.stream.filled = 0) := by
  have hcursor := h.cursor_le
  have hnothing : ∀ n ∈ (none : Option Nat), 0 < n ∧ n ≤ size := fun n hn =>
    absurd hn (Option.not_mem_none n)
  simp only [Stream.readOnce, ends_bind, ends_getStream, ends_ite, ends_pure, Stream.ends_copy,
    Stream.ends_fill, Stream.ends_fetchLent]
  rw [h.available_eq]
  refine ⟨fun hzero => ⟨fun _ => ?past, fun _ => ?through⟩, fun hsome => ?window⟩
  case past =>
    have hused : s.stream.filled ≤ s.stream.cursor := by omega
    have hfits : size + chunk ≤ Word.count := by
      have hhalf : Word.half + Word.half = Word.count := rfl
      have hlimit := h.matched.chunk_lt
      have hlent := h.room
      omega
    refine (h.ends_fetchWith (.lent offset) hroom hsize hfits _).mono (fun count t ht => ?_)
      (fun _ t ht => ⟨?_, ht.filled⟩)
    · cases ht with
      | nothing _ ht hend =>
          have hdelivered := h.delivered_of_fetching hused ht fun i hi =>
            absurd hi (Nat.not_lt_zero i)
          refine ⟨hdelivered, hnothing, fun _ => ⟨by rw [ht.filled]; exact Nat.zero_le _, ?_⟩⟩
          have hnonneg := h.position_nonneg
          have hposition := hdelivered.position
          rw [h.position_of_used hused] at hnonneg hposition
          omega
      | bytes n _ hpos hn ht hbytes =>
          refine ⟨h.delivered_of_fetching hused ht (backed_of_brought hB hP hbytes),
            fun m hm => ?_, fun hnone => by cases hnone⟩
          rw [← Option.mem_some.mp hm]
          exact ⟨hpos, hn⟩
    · exact h.delivered_of_fetching hused ht fun i hi => absurd hi (Nat.not_lt_zero i)
  case through =>
    refine (h.ends_refill hB hP (by omega) _).mono (fun _ t ht => ?_)
      (fun _ t ht => ⟨ht.1.delivered offset, ht.2⟩)
    obtain ⟨ht, hend⟩ := ht
    refine ⟨fun hempty => ⟨ht.delivered offset, hnothing, fun _ => hend hempty⟩, fun hfilled => ?_⟩
    have hstart := ht.cursor
    have hlent := congrArg List.length ht.lent
    have hcopied := (ht.delivered offset).trans
      (ht.backed.copied (n := min t.stream.filled size) (by omega) (by omega)) hB h
    rw [Nat.zero_add] at hcopied
    refine ⟨hcopied, fun m hm => ?_, fun hnone => by cases hnone⟩
    rw [← Option.mem_some.mp hm]
    omega
  case window =>
    have hcopied := @copied _ _ _ s h offset _
      (Nat.min_le_left (s.stream.filled - s.stream.cursor) size) (by omega)
    refine ⟨hcopied, fun m hm => ?_, fun hnone => by cases hnone⟩
    rw [← Option.mem_some.mp hm]
    omega

/-- Reading up to a size hands out as much as it says, and less only where the data has ended. -/
theorem ends_readUpTo (hB : Evidence checksum chunk B P) (hP : P s)
    (h : s.Backed B checksum chunk) {fuel offset size : Nat} (hsize : 0 < size)
    (hfuel : size ≤ fuel) (hroom : offset + size ≤ s.lent.length) :
    Ends (Stream.readUpTo Replicas.source.recorded fuel offset size) s
      (fun count t => Delivered B checksum chunk offset count s t ∧ count ≤ size ∧
        (count < size → t.Ended))
      (fun _ t => ∃ count ≤ size, Delivered B checksum chunk offset count s t ∧
        t.stream.filled = 0) := by
  -- The fuel covers what is left to read, so it isn't spent before the range is full.
  refine Stream.ends_readUpTo_of_turns
    (I := fun fuel count t => Delivered B checksum chunk offset count s t ∧ count < size ∧
      size ≤ count + fuel)
    (fun count t ht => absurd ht.2.1 (Nat.not_lt_of_le ht.2.2)) (fun fuel count t ht => ?_)
    ⟨.refl h offset, hsize, by omega⟩
  obtain ⟨ht, hless, hfuel⟩ := ht
  have hroom' : offset + count + (size - count) ≤ t.lent.length := by
    rw [ht.length]
    omega
  refine (ht.backed.ends_readOnce hB (hB.kept hP ht.kept) (Nat.sub_pos_of_lt hless) hroom').mono
    (fun more u hu => ?_)
    (fun _ u hu => ⟨count, Nat.le_of_lt hless, ht.trans hu.1 hB h, hu.2⟩)
  obtain ⟨hdelivered, hmore, hend⟩ := hu
  have hall := ht.trans hdelivered hB h
  refine ⟨fun hnone => ?_, fun n hn => ?_⟩
  · subst hnone
    exact ⟨hall, Nat.le_of_lt hless, fun _ => hend rfl⟩
  · subst hn
    obtain ⟨hpos, hle⟩ := hmore n rfl
    exact ⟨fun hfull => ⟨hall, by omega, fun hless => absurd hless (Nat.not_lt_of_le hfull)⟩,
      fun hless => ⟨hall, hless, by omega⟩⟩

/-- A read hands out bytes with evidence, less than asked for only where the data has ended, or it
fails after some of them with an empty window. -/
theorem ends_read (hB : Evidence checksum chunk B P) (hP : P s) (h : s.Backed B checksum chunk)
    (offset size : Nat) :
    Ends (Stream.read Replicas.source.recorded offset size) s
      (fun count t => Delivered B checksum chunk offset (count.getD 0) s t ∧
        count.getD 0 ≤ size ∧ (count.getD 0 < size → t.Ended))
      (fun e t => e = .outsideBuffer ∧ t = s ∨
        ∃ count ≤ size, Delivered B checksum chunk offset count s t ∧ t.stream.filled = 0) := by
  simp only [Stream.read, ends_bind, ends_get, ends_ite, ends_pure, ends_throw]
  refine ⟨fun _ => .inl ⟨trivial, trivial⟩, fun hrange => ⟨fun hzero => ?_, fun hsome => ?_⟩⟩
  · exact ⟨.refl h offset, Nat.zero_le _, fun hless => absurd hzero (Nat.ne_of_gt hless)⟩
  refine (h.ends_readUpTo hB hP (Nat.pos_of_ne_zero hsome) (Nat.le_refl _) (by omega)).mono
    (fun count t ht => ?_) (fun _ t ht => .inr ht)
  by_cases hzero : count = 0
  · subst hzero
    exact ht
  · rw [if_neg hzero]
    exact ht

/-! ## Reading where the data has ended -/

theorem ends_fetchWith_of_ended (h : s.Backed B checksum chunk) (hend : s.Ended)
    (target : Stream.Target) {size : Nat} (hfits : size + chunk ≤ Word.count)
    (reseek : Int → StreamM (Recorded Replicas) Unit) :
    Ends (Stream.fetchWith Replicas.source.recorded reseek target size) s
      (fun count _ => count = none) (fun _ _ => True) := by
  have hposition := h.position_of_used hend.used
  have hsize : s.source.state.size ≤ s.stream.next.toNat := by
    have hsize := hend.size_le
    rw [hposition] at hsize
    omega
  have hnext : s.cleared.stream.next = s.stream.next.toNat := by
    have hnonneg := h.position_nonneg
    show s.stream.next = _
    omega
  rw [Stream.ends_fetchWith]
  cases s.stream.attempts with
  | zero => exact trivial
  | succ left =>
      exact (Stream.Fetching.ends_attempt_of_le (h.matched.alike s.alike_cleared rfl) hfits
        ⟨.refl Replicas.respects_grown _, rfl, rfl, hnext, .refl _, .refl _ _⟩ hsize reseek
        left).mono (fun _ _ ht => ht) (fun _ _ _ => trivial)

/-- Where the data has ended, a read hands out nothing. -/
theorem ends_readOnce_of_ended (h : s.Backed B checksum chunk) (hend : s.Ended)
    {offset size : Nat} (hroom : offset + size ≤ s.lent.length) :
    Ends (Stream.readOnce Replicas.source.recorded offset size) s (fun count _ => count = none)
      (fun _ _ => True) := by
  have hhalf : Word.half + Word.half = Word.count := rfl
  have hlimit := h.matched.chunk_lt
  have hchunk := h.matched.maxChunk_eq
  have hlent := h.room
  have hused := hend.used
  simp only [Stream.readOnce, ends_bind, ends_getStream, ends_ite, ends_pure, Stream.ends_copy,
    Stream.ends_fill, Stream.ends_fetchLent]
  rw [h.available_eq, Stream.ends_refill_succ]
  refine ⟨fun _ => ⟨fun _ => h.ends_fetchWith_of_ended hend _ (by omega) _, fun _ =>
    ⟨fun _ => trivial, fun _ => ?_⟩⟩, fun hsome => absurd (Nat.sub_eq_zero_of_le hused) hsome⟩
  refine (h.ends_fetchWith_of_ended hend .window (by omega) _).mono (fun count t hcount => ?_)
    (fun _ _ _ => trivial)
  subst hcount
  exact ⟨fun _ => trivial, fun hfilled => absurd rfl hfilled⟩

theorem ends_read_of_ended (h : s.Backed B checksum chunk) (hend : s.Ended) (offset size : Nat) :
    Ends (Stream.read Replicas.source.recorded offset size) s (fun count _ => count.getD 0 = 0)
      (fun _ _ => True) := by
  simp only [Stream.read, ends_bind, ends_get, ends_ite, ends_pure, ends_throw]
  refine ⟨fun _ => trivial, fun hrange => ⟨fun _ => rfl, fun _ => ?_⟩⟩
  cases size with
  | zero => exact rfl
  | succ fuel =>
      simp only [Stream.readUpTo, ends_bind]
      refine (h.ends_readOnce_of_ended hend (by omega)).mono (fun count t hcount => ?_)
        (fun _ _ _ => trivial)
      subst hcount
      exact rfl

/-! ## Runs -/

/-- Every operation keeps the window backed, also one that fails or that changes replicas. -/
theorem keeps (hB : Evidence checksum chunk B P) {operation : Operation} (hfits : operation.Fits)
    (hverify : ∀ verify, operation = .setVerify verify →
      ∀ s, P s → P { s with stream := { s.stream with verify } }) :
    Keeps (fun s => s.Backed B checksum chunk ∧ P s)
      (operation.perform Replicas.source.recorded) := by
  have hsought : ∀ s t, P s → Sought B checksum chunk s t → t.Backed B checksum chunk ∧ P t :=
    fun s t hP ht => ⟨ht.backed, hB.kept hP ht.kept⟩
  refine Operation.keeps_perform ?byte ?read ?seek ?switch operation ?lend ?verify
  case byte =>
    intro s h
    exact (h.1.ends_readByte hB h.2).mono (fun _ t ht => hsought s t h.2 ht.1)
      (fun _ t ht => hsought s t h.2 ht)
  case read =>
    intro offset size s h
    refine (h.1.ends_read hB h.2 offset size).mono (fun _ t ht => ?_) (fun _ t ht => ?_)
    · exact ⟨ht.1.backed, hB.kept h.2 ht.1.kept⟩
    · obtain ⟨-, rfl⟩ | ⟨count, -, ht, -⟩ := ht
      · exact h
      · exact ⟨ht.backed, hB.kept h.2 ht.kept⟩
  case seek =>
    intro position s h
    exact (h.1.ends_seek hB h.2 position).mono (fun _ t ht => hsought s t h.2 ht.1)
      (fun _ t ht => hsought s t h.2 ht)
  case switch =>
    intro position s h
    have hkept : s.Kept Recorded.Grown (s.switched Replicas.source.recorded position) :=
      Kept.switched Replicas.respects_grown (.refl Replicas.respects_grown s) position
    refine ⟨⟨h.1.matched.grown hkept, h.1.room, h.1.cursor_le, h.1.filled_le, h.1.filled_le_chunk,
      fun i hi => ?_⟩, hB.kept h.2 hkept⟩
    have hi : i < s.stream.filled := hi
    have hfilled := h.1.filled_le
    obtain ⟨byte, hbyte, hbacked⟩ := h.1.window i hi
    have hoffset : s.stream.next.toNat - s.stream.filled + i < s.stream.next.toNat := by omega
    exact ⟨byte, hbyte, hB.since hbacked (.push _ _ fun _ _ => rfl) hoffset⟩
  case lend =>
    intro buffer hbuffer s h
    exact ⟨h.1.lending (hfits buffer hbuffer), hB.kept h.2 (.of_same (.refl _) rfl rfl)⟩
  case verify =>
    intro verify hoperation s h
    have hmatched := h.1.matched
    exact ⟨⟨⟨hmatched.checksum_eq, hmatched.maxChunk_eq, hmatched.chunk_eq, hmatched.chunk_pos,
      hmatched.chunk_lt, hmatched.room, hmatched.inOrder⟩, h.1.room, h.1.cursor_le, h.1.filled_le,
      h.1.filled_le_chunk, h.1.window⟩, hverify verify hoperation s h.2⟩

end Session.Backed

end ChunkGuard
