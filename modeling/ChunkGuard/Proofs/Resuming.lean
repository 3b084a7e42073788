import ChunkGuard.Proofs.Dialogue
import ChunkGuard.Proofs.Ending
import ChunkGuard.Proofs.Reading

/-!
# Where a failure leaves a stream

A program of a stream fails in one of its fetches, and the stream then stands where that fetch began,
with nothing in its window (`Session.Stopped`). Until then the program went on from where it was: each
byte that it handed out is the one that was fetched for its offset last (`Recorded.fetched?`), and so
is each byte in the window (`Session.Traced`). So a caller who goes on after a failure loses no byte
and gets none twice (`Session.Resumable`).
-/

namespace ChunkGuard

open Session

variable {σ : Type}

/-! ## Bytes as they were fetched -/

/-- The byte at an offset in the reply to a call. -/
def Call.byteAt (offset : Nat) : Call σ → Option UInt8
  | .read _ request (.ok (.chunk data _)) => data[offset - request.position.toNat]?
  | _ => none

namespace Recorded

variable {x y : Recorded σ} {offset : Nat}

/-- The byte at an offset as it was fetched last. -/
def fetched? (offset : Nat) (r : Recorded σ) : Option UInt8 :=
  (r.bringer offset).bind (Call.byteAt offset)

theorem Since.of_calls (h : y.calls = x.calls) (offset : Nat) : Since offset x y :=
  ⟨[], h.trans (List.append_nil _).symm, fun _ hcall => absurd hcall List.not_mem_nil⟩

/-- Calls from an offset on don't change what was fetched before it. -/
theorem Since.fetched?_eq (h : Since offset x y) {i : Nat} (hi : i < offset) :
    y.fetched? i = x.fetched? i := by
  rw [fetched?, fetched?, h.bringer_eq hi]

/-- The last call gave the bytes that it covers. -/
theorem fetched?_of_last {calls : List (Call σ)} {call : Call σ} (h : x.calls = calls ++ [call])
    (hcovers : call.covers offset) : x.fetched? offset = call.byteAt offset := by
  rw [fetched?, bringer, h, List.filter_append, List.filter_cons_of_pos hcovers, List.filter_nil,
    List.getLast?_concat, Option.bind_some]

/-- The last reply gave its bytes from the request's position on. -/
theorem fetched?_of_reply {calls : List (Call σ)} {before : σ} {request : Request}
    {data sums : Bytes} (h : x.calls = calls ++ [.read before request (.ok (.chunk data sums))])
    (hposition : 0 ≤ request.position) {i : Nat} (hi : i < data.length) :
    x.fetched? (request.position.toNat + i) = data[i]? := by
  rw [fetched?_of_last h (Call.covers_chunk.mpr ⟨by omega, by omega⟩)]
  show data[request.position.toNat + i - request.position.toNat]? = data[i]?
  rw [Nat.add_sub_cancel_left]

/-- Calls after a window don't change what was fetched for it. -/
theorem Since.window {window : Bytes} {filled : Nat} {next : Int} (h : Since next.toNat x y)
    (hfilled : (filled : Int) ≤ next)
    (hwindow : ∀ i < filled, ∃ byte, window[i]? = some byte ∧
      x.fetched? (next.toNat - filled + i) = some byte) :
    ∀ i < filled, ∃ byte, window[i]? = some byte ∧
      y.fetched? (next.toNat - filled + i) = some byte := by
  intro i hi
  obtain ⟨byte, hbyte, hfetched⟩ := hwindow i hi
  exact ⟨byte, hbyte, (h.fetched?_eq (by omega)).trans hfetched⟩

end Recorded

/-! ## What a fetch leaves -/

namespace Stream

variable {S : σ → σ → Prop} {target : Target} {size attempts : Nat} {stream : Stream}
  {s t : Session (Recorded σ)} {result : Except StreamError (Option Bytes)}

theorem Rounds.covers_eq_false {rounds : Nat} {held held' : Bytes} {calls : List (Call σ)}
    (h : stream.Rounds size rounds held calls held') {i : Nat} (hi : (i : Int) < stream.next) :
    ∀ call ∈ calls, call.covers i = false := by
  induction h with
  | nil held => exact fun call hcall => absurd hcall List.not_mem_nil
  | cons x y _ _ _ _ ih =>
      intro call hcall
      obtain rfl | hcall := List.mem_cons.mp hcall
      · exact Call.covers_read_of_lt hi
      obtain rfl | hcall := List.mem_cons.mp hcall
      · rfl
      · exact ih call hcall

theorem Closing.covers_eq_false {left : Nat} {held held' : Bytes} {calls : List (Call σ)}
    (h : stream.Closing size left held calls result held') {i : Nat}
    (hi : (i : Int) < stream.next) : ∀ call ∈ calls, call.covers i = false := by
  have hread : ∀ (x : σ) outcome, (Call.read x (stream.ask size) outcome).covers i = false :=
    fun _ _ => Call.covers_read_of_lt hi
  intro call hcall
  cases h with
  | alone x y =>
      obtain rfl | hcall := List.mem_cons.mp hcall
      · exact hread x _
      · exact List.mem_singleton.mp hcall ▸ rfl
  | _ => exact List.mem_singleton.mp hcall ▸ hread _ _

/-- A fetch covers nothing before it. -/
theorem Conversed.since (h : Conversed S target size attempts s result t) :
    Recorded.Since s.stream.next.toNat s.source t.source := by
  obtain ⟨_, _, _, opening, closing, -, hcalls, hopening, hclosing⟩ := h.calls
  refine ⟨opening ++ closing, hcalls, fun call hcall i hi => ?_⟩
  have hbefore : (i : Int) < s.stream.next := by omega
  obtain hcall | hcall := List.mem_append.mp hcall
  · exact hopening.covers_eq_false hbefore call hcall
  · exact hclosing.covers_eq_false hbefore call hcall

/-- What a fetch gives was fetched last. -/
theorem Conversed.fetched?_eq (h : Conversed S target size attempts s result t)
    (hnext : 0 ≤ s.stream.next) {i : Nat} (hi : i < (given result).length) :
    t.source.fetched? (s.stream.next.toNat + i) = (given result)[i]? := by
  obtain ⟨_, _, _, opening, closing, -, hcalls, -, hclosing⟩ := h.calls
  generalize t.stream.sums = held at hclosing
  -- Only a fetch that passed gives anything, and then its last call brought it.
  cases hclosing with
  | @passed data sums x =>
      rw [← List.append_assoc] at hcalls
      exact Recorded.fetched?_of_reply hcalls hnext hi
  | _ => exact absurd hi (Nat.not_lt_zero i)

/-- A byte that a call fetched is in its place. -/
theorem Conversed.fetched (h : Conversed S target size attempts s result t)
    (hnext : 0 ≤ s.stream.next) :
    ∀ i < (given result).length, ∃ byte, target.byteAt i t = some byte ∧
      t.source.fetched? (s.stream.next.toNat + i) = some byte := by
  intro i hi
  refine ⟨(given result)[i], ?_, ?_⟩
  · rw [h.bytes i hi, List.getElem?_eq_getElem hi]
  · rw [h.fetched?_eq hnext hi, List.getElem?_eq_getElem hi]

/-- A fetch that doesn't say that the data has ended gives some. -/
theorem Conversed.ne_nil {data : Bytes}
    (h : Conversed S target size attempts s (.ok (some data)) t) : data ≠ [] := by
  obtain ⟨_, _, _, _, _, -, -, -, hclosing⟩ := h.calls
  generalize t.stream.sums = held at hclosing
  cases hclosing with
  | passed x hdata => exact hdata

end Stream

/-! ## Sources in order -/

/-- The source gives no more than is asked for. It starts a chunk at or before each position in it,
and where it gives data to be verified, one starts there for each of its copies. -/
structure Source.Orderly (source : Source σ) : Prop where
  le_size : ∀ {request x data sums y}, source.read request x = .ok (.chunk data sums) y →
    data.length ≤ request.size
  start_switch : ∀ {request x data sums y}, source.read request x = .ok (.chunk data sums) y →
    request.capacity.isSome →
    source.start (source.switch request.position y).2 request.position = request.position
  start_nonneg : ∀ x {position}, 0 ≤ position → 0 ≤ source.start x position
  start_le : ∀ x {position}, 0 ≤ position → source.start x position ≤ position

theorem Source.Orderly.relies {source : Source σ} (h : source.Orderly) (size : Nat)
    (stream : Stream) (x : σ) : Stream.Relies source source.Leads size stream x where
  respects := source.respects_leads
  le_size _ _ _ _ _ hread := h.le_size hread
  start_eq _ _ _ _ _ hread _ hneeds :=
    h.start_switch hread ((Stream.isSome_capacity stream).trans hneeds)

/-- How far a position is into its chunk is no more than the position, whatever the chunks' size. -/
theorem Chunk.offset_bounds (chunk : Nat) {position : Int} (h : 0 ≤ position) :
    0 ≤ offset chunk position ∧ offset chunk position ≤ position := by
  have hnonneg := Int.tmod_nonneg (Word.signed chunk) h
  have habs := Int.natAbs_tmod position (Word.signed chunk)
  have hle := Nat.mod_le position.natAbs (Word.signed chunk).natAbs
  rw [offset]
  omega

theorem Replicas.orderly_source : (source : Source Replicas).Orderly where
  le_size hread := (bounded_source _ _ _ _ _ hread).1
  start_switch hread hcapacity := settles _ _ _ _ _ hcapacity hread
  start_nonneg x position h := by
    have hbounds := Chunk.offset_bounds x.chunk h
    show 0 ≤ position - Chunk.offset x.chunk position
    omega
  start_le x position h := by
    have hbounds := Chunk.offset_bounds x.chunk h
    show position - Chunk.offset x.chunk position ≤ position
    omega

/-! ## Sessions -/

/-- Moving in the window moves the position as far. -/
theorem Stream.position_moved (s : Stream) (cursor : Nat) :
    ({ s with cursor } : Stream).position = s.position + (cursor - s.cursor) := by
  rw [Stream.position, Stream.position]
  dsimp only
  omega

/-- Every byte of the window was fetched last for its offset, and the stream is somewhere in the
window. -/
structure Session.Traced (s : Session (Recorded σ)) : Prop where
  ready : s.stream.Ready
  attempts_pos : 0 < s.stream.attempts
  maxChunk_lt : s.stream.maxChunk < Word.count
  cursor_le : s.stream.cursor ≤ s.stream.filled
  filled_le : (s.stream.filled : Int) ≤ s.stream.next
  filled_le_chunk : s.stream.filled ≤ s.stream.maxChunk
  window : ∀ i < s.stream.filled, ∃ byte, s.stream.window[i]? = some byte ∧
    s.source.fetched? (s.stream.next.toNat - s.stream.filled + i) = some byte

/-- The session failed in a fetch, made after some calls, and stands where that fetch began. -/
structure Session.Stopped (source : Source σ) (s : Session (Recorded σ)) (e : StreamError)
    (t : Session (Recorded σ)) : Prop where
  traced : t.Traced
  available : t.stream.available = 0
  fetch : ∃ u target size, s.source.calls <+: u.source.calls ∧
    u.stream.next = t.stream.position ∧
    Stream.Conversed source.Leads target size u.stream.attempts u (.error e) t

namespace Session.Traced

variable {source : Source σ} {s t u : Session (Recorded σ)} {e : StreamError}

theorem position_nonneg (h : s.Traced) : 0 ≤ s.stream.position := by
  have hfilled := h.filled_le
  rw [Stream.position]
  omega

theorem next_nonneg (h : s.Traced) : 0 ≤ s.stream.next := by
  have hfilled := h.filled_le
  omega

theorem position_of_used (h : s.Traced) (hused : s.stream.filled ≤ s.stream.cursor) :
    s.stream.position = s.stream.next := by
  have hcursor := h.cursor_le
  rw [Stream.position]
  omega

/-- The number of bytes left in the window doesn't wrap. -/
theorem available_eq (h : s.Traced) : s.stream.available = s.stream.filled - s.stream.cursor := by
  have hchunk := h.filled_le_chunk
  have hlimit := h.maxChunk_lt
  rw [Stream.available_eq_mod h.cursor_le, Nat.mod_eq_of_lt (by omega)]

/-- With an empty window the stream may be anywhere from the start on. -/
theorem emptied (h : s.Traced) (halike : s.stream.Alike t.stream) (hfilled : t.stream.filled = 0)
    (hcursor : t.stream.cursor = 0) (hnext : 0 ≤ t.stream.next) : t.Traced where
  ready := halike.ready h.ready
  attempts_pos := halike.attempts ▸ h.attempts_pos
  maxChunk_lt := halike.maxChunk ▸ h.maxChunk_lt
  cursor_le := by omega
  filled_le := by omega
  filled_le_chunk := by omega
  window i hi := by omega

/-- Moving in the window keeps it traced, and so do calls after it, whatever the source went on to. -/
theorem altered (h : s.Traced) {cursor : Nat} (hcursor : cursor ≤ s.stream.filled) (verify : Bool)
    {x : Recorded σ} (hx : Recorded.Since s.stream.next.toNat s.source x) (lent : Bytes)
    (events : List Log.Event) :
    Traced { stream := { s.stream with cursor, verify }, source := x, lent, events } where
  ready := h.ready
  attempts_pos := h.attempts_pos
  maxChunk_lt := h.maxChunk_lt
  cursor_le := hcursor
  filled_le := h.filled_le
  filled_le_chunk := h.filled_le_chunk
  -- The window ends where the source is read next, so later calls cover nothing of it.
  window := hx.window h.filled_le h.window

theorem moved (h : s.Traced) {cursor : Nat} (hcursor : cursor ≤ s.stream.filled) :
    Traced { s with stream := { s.stream with cursor } } :=
  h.altered hcursor s.stream.verify (.refl _) s.lent s.events

theorem lending (h : s.Traced) (buffer : Bytes) : Traced { s with lent := buffer } :=
  h.altered h.cursor_le s.stream.verify (.refl _) buffer s.events

/-- A failed fetch stops where it began. -/
theorem stopped (h : s.Traced) {target : Stream.Target} {size : Nat}
    (ht : Stream.Conversed source.Leads target size s.stream.attempts s (.error e) t) :
    Stopped source s e t := by
  have hfilled := ht.filled
  have hcursor := ht.cursor
  have hnext : t.stream.next = s.stream.next := ht.next_eq.trans (Int.add_zero _)
  have htraced := h.emptied ht.stream hfilled hcursor (hnext ▸ h.next_nonneg)
  refine ⟨htraced, ?_, s, target, size, List.prefix_refl _, ?_, ht⟩
  · rw [htraced.available_eq, hfilled, Nat.zero_sub]
  · rw [htraced.position_of_used (by omega), hnext]

end Session.Traced

/-- Calls made in between make no difference to where a session stopped. -/
theorem Session.Stopped.of_earlier {source : Source σ} {s t u : Session (Recorded σ)}
    {e : StreamError} (h : Stopped source t e u) (hst : s.source.calls <+: t.source.calls) :
    Stopped source s e u := by
  obtain ⟨v, target, size, hcalls, hposition, hv⟩ := h.fetch
  exact ⟨h.traced, h.available, v, target, size, hst.trans hcalls, hposition, hv⟩

/-! ## Ranges outside of the buffer -/

section Outside

variable {source : Source σ} {s : Session σ} {offset size : Nat}

theorem Stream.ends_read_of_outside (h : s.lent.length < offset + size) :
    Ends ((Stream.seekable source).read offset size) s (fun _ _ => False)
      (fun e t => e = .outsideBuffer ∧ t = s) := by
  simp only [Stream.seekable, Stream.read, ends_bind, ends_get, ends_ite, ends_throw]
  exact ⟨fun _ => ⟨trivial, trivial⟩, fun hinside => absurd h (by omega)⟩

theorem Stream.ends_readAt_of_outside (h : s.lent.length < offset + size) (position : Int) :
    Ends ((Stream.seekable source).readAt position offset size) s (fun _ _ => False)
      (fun e t => e = .outsideBuffer ∧ t = s) := by
  have hbuffer : (Stream.seekable source).buffer s = s.lent := rfl
  simp only [Seekable.readAt, ends_bind, ends_get, ends_ite, ends_throw, hbuffer]
  exact ⟨fun _ => ⟨trivial, trivial⟩, fun hinside => absurd h (by omega)⟩

/-- The operation reads a range that isn't inside of its buffer. A complete read of nothing reads
no range. -/
def Operation.Outside : Operation → Prop
  | read buffer offset size => buffer.length < offset + size
  | readFully buffer offset size => size ≠ 0 ∧ buffer.length < offset + size
  | readAt _ buffer offset size => buffer.length < offset + size
  | readFullyAt _ buffer offset size => size ≠ 0 ∧ buffer.length < offset + size
  | _ => False

/-- Such a read is refused before anything is done. -/
theorem Operation.perform_of_outside {operation : Operation} (h : operation.Outside)
    (source : Source σ) (s : Session σ) :
    operation.perform source s =
      .error .outsideBuffer { s with lent := operation.buffer?.getD s.lent } := by
  have hrefused : ∀ {α : Type} {m : StreamM σ α} {t : Session σ} {Q : α → Session σ → Prop},
      Ends m t (fun _ _ => False) (fun e u => e = .outsideBuffer ∧ u = t) →
      Ends m t Q (fun e u => e = .outsideBuffer ∧ u = t) := fun hm =>
    hm.mono (fun _ _ hfalse => hfalse.elim) (fun _ _ hu => hu)
  suffices hends : Ends (operation.perform source) s (fun _ _ => False)
      (fun e t => e = .outsideBuffer ∧ t = { s with lent := operation.buffer?.getD s.lent }) by
    obtain ⟨_, _, hperform, rfl, rfl⟩ := hends.exists_error
    exact hperform
  cases operation with
  | read buffer offset size =>
      simp only [perform, ends_bind, ends_lend]
      exact hrefused (Stream.ends_read_of_outside h)
  | readFully buffer offset size =>
      simp only [perform, ends_bind, ends_lend]
      exact hrefused (Seekable.ends_readParts_refused h.1 (Stream.ends_read_of_outside h.2))
  | readAt position buffer offset size =>
      simp only [perform, ends_bind, ends_lend]
      exact hrefused (Stream.ends_readAt_of_outside h position)
  | readFullyAt position buffer offset size =>
      simp only [perform, ends_bind, ends_lend]
      exact hrefused (Seekable.ends_readParts_refused h.1 (Stream.ends_readAt_of_outside h.2 _))
  | _ => exact h.elim

end Outside

/-! ## Programs -/

namespace Session.Traced

variable {source : Source σ} {s t u : Session (Recorded σ)} {e : StreamError}

/-- The window was filled, or is empty, and the stream is where it was. -/
structure Filled (s t : Session (Recorded σ)) : Prop where
  traced : t.Traced
  cursor : t.stream.cursor = 0
  lent : t.lent = s.lent
  position : t.stream.position = s.stream.position
  since : Recorded.Since s.stream.position.toNat s.source t.source

/-- A fetch into a window that is used up fills it with what it gives. -/
theorem filled_of_conversed (h : s.Traced) (hused : s.stream.filled ≤ s.stream.cursor)
    {result : Except StreamError (Option Bytes)}
    (ht : Stream.Conversed source.Leads .window s.stream.maxChunk s.stream.attempts s result t) :
    Filled s { t with stream := { t.stream with filled := (Stream.given result).length } } := by
  have hposition := h.position_of_used hused
  have hcursor := ht.cursor
  have hnext := ht.next_eq
  have hnonneg := h.next_nonneg
  have hoffset : t.stream.next.toNat - (Stream.given result).length = s.stream.next.toNat := by
    omega
  refine ⟨⟨ht.stream.ready h.ready, ?_, ?_, ?_, ?_, ?_, ?_⟩, hcursor, (ht.spares trivial).2, ?_, ?_⟩
  · exact Nat.lt_of_lt_of_eq h.attempts_pos ht.stream.attempts.symm
  · exact Nat.lt_of_le_of_lt (Nat.le_of_eq ht.stream.maxChunk) h.maxChunk_lt
  · exact Nat.le_trans (Nat.le_of_eq hcursor) (Nat.zero_le _)
  · show ((Stream.given result).length : Int) ≤ t.stream.next
    omega
  · exact Nat.le_trans ht.le_size (Nat.le_of_eq ht.stream.maxChunk.symm)
  · show ∀ i < (Stream.given result).length, ∃ byte, t.stream.window[i]? = some byte ∧
      t.source.fetched? (t.stream.next.toNat - (Stream.given result).length + i) = some byte
    rw [hoffset]
    exact ht.fetched hnonneg
  · rw [hposition, Stream.position]
    show t.stream.next - (((Stream.given result).length : Int) - t.stream.cursor) = _
    omega
  · rw [hposition]
    exact ht.since

/-- So many bytes were handed out to the lent buffer from an offset on, each as it was fetched last
for its offset from where the stream was. Nothing before them was touched, and every call since then
was from there on. -/
structure Delivered (offset count : Nat) (s t : Session (Recorded σ)) : Prop where
  traced : t.Traced
  position : t.stream.position = s.stream.position + count
  length : t.lent.length = s.lent.length
  before : ∀ i < offset, t.lent[i]? = s.lent[i]?
  bytes : ∀ i < count, ∃ byte, t.lent[offset + i]? = some byte ∧
    t.source.fetched? (s.stream.position.toNat + i) = some byte
  since : Recorded.Since s.stream.position.toNat s.source t.source

namespace Delivered

variable {offset n m : Nat}

theorem refl (h : s.Traced) (offset : Nat) : Delivered offset 0 s s :=
  ⟨h, (Int.add_zero _).symm, rfl, fun _ _ => rfl, fun i hi => absurd hi (Nat.not_lt_zero i), .refl _⟩

/-- Bytes handed out one after the other are handed out together. -/
theorem trans (h : Delivered offset n s t) (hs : s.Traced) (h' : Delivered (offset + n) m t u) :
    Delivered offset (n + m) s u := by
  have hnonneg := hs.position_nonneg
  have hposition := h.position
  have hposition' := h'.position
  have hstart : t.stream.position.toNat = s.stream.position.toNat + n := by omega
  refine ⟨h'.traced, by omega, h'.length.trans h.length, fun i hi => ?_, fun i hi => ?_,
    h.since.trans (h'.since.mono (by omega))⟩
  · exact (h'.before i (by omega)).trans (h.before i hi)
  · by_cases hfirst : i < n
    · -- What was handed out first is neither written over nor fetched again.
      obtain ⟨byte, hbyte, hfetched⟩ := h.bytes i hfirst
      refine ⟨byte, (h'.before (offset + i) (by omega)).trans hbyte, ?_⟩
      exact (h'.since.fetched?_eq (by omega)).trans hfetched
    · have hbytes := h'.bytes (i - n) (by omega)
      have hindex : offset + n + (i - n) = offset + i := by omega
      have hoffset : t.stream.position.toNat + (i - n) = s.stream.position.toNat + i := by omega
      rwa [hindex, hoffset] at hbytes

end Delivered

theorem Filled.delivered (h : Filled s t) (offset : Nat) : Delivered offset 0 s t :=
  ⟨h.traced, h.position.trans (Int.add_zero _).symm, congrArg List.length h.lent,
    fun _ _ => h.lent ▸ rfl, fun i hi => absurd hi (Nat.not_lt_zero i), h.since⟩

/-- A fetch into the lent buffer hands out what it gives. -/
theorem delivered_of_conversed (h : s.Traced) (hused : s.stream.filled ≤ s.stream.cursor)
    {offset size : Nat} (hroom : offset + size ≤ s.lent.length)
    {result : Except StreamError (Option Bytes)}
    (ht : Stream.Conversed source.Leads (.lent offset) size s.stream.attempts s result t) :
    Delivered offset (Stream.given result).length s t := by
  have hposition := h.position_of_used hused
  have hnonneg := h.next_nonneg
  have hnext := ht.next_eq
  have htraced := h.emptied ht.stream ht.filled ht.cursor (by omega)
  obtain ⟨hlength, hbefore⟩ := ht.spares hroom
  refine ⟨htraced, ?_, hlength, hbefore, ?_, ?_⟩
  · rw [htraced.position_of_used (Nat.le_of_eq (ht.filled.trans ht.cursor.symm)), hposition, hnext]
  · rw [hposition]
    exact ht.fetched hnonneg
  · rw [hposition]
    exact ht.since

/-- Bytes of the window are handed out by copying them. -/
theorem copied (h : s.Traced) (offset : Nat) {n : Nat} (hn : n ≤ s.stream.filled - s.stream.cursor)
    (hroom : offset + n ≤ s.lent.length) :
    Delivered offset n s
      { s with
        lent := Bytes.write offset (Bytes.padded s.stream.cursor n s.stream.window) s.lent
        stream := { s.stream with cursor := s.stream.cursor + n } } := by
  have hcursor := h.cursor_le
  have hfilled := h.filled_le
  have hsize : (Bytes.padded s.stream.cursor n s.stream.window).length = n :=
    Bytes.length_padded _ _ _
  have hspares : (Stream.Target.lent offset).Spares s ((Stream.Target.lent offset).put
      (Bytes.padded s.stream.cursor n s.stream.window) s) :=
    Stream.Target.spares_put hroom (Nat.le_of_eq hsize)
  refine ⟨(h.moved (by omega)).lending _, ?_, hspares.1, hspares.2, fun i hi => ?_, .refl _⟩
  · rw [Stream.position_moved]
    omega
  · have hput : (Stream.Target.lent offset).byteAt i ((Stream.Target.lent offset).put
        (Bytes.padded s.stream.cursor n s.stream.window) s) =
        (Bytes.padded s.stream.cursor n s.stream.window)[i]? :=
      Stream.Target.byteAt_put (by omega)
    obtain ⟨byte, hbyte, hfetched⟩ := h.window (s.stream.cursor + i) (by omega)
    rw [Bytes.getElem?_padded, if_pos hi, List.getD_eq_getElem?_getD, hbyte,
      Option.getD_some] at hput
    have hoffset : s.stream.next.toNat - s.stream.filled + (s.stream.cursor + i) =
        s.stream.position.toNat + i := by
      rw [Stream.position]
      omega
    exact ⟨byte, hput, hoffset ▸ hfetched⟩

/-- The next byte of the window is the one fetched last for where the stream is. -/
theorem taken (h : s.Traced) (hunused : s.stream.cursor < s.stream.filled) :
    Traced { s with stream := { s.stream with cursor := s.stream.cursor + 1 } } ∧
      ({ s.stream with cursor := s.stream.cursor + 1 } : Stream).position =
        s.stream.position + 1 ∧
      s.source.fetched? s.stream.position.toNat =
        some (s.stream.window.getD s.stream.cursor 0) := by
  have hfilled := h.filled_le
  have hoffset : s.stream.next.toNat - s.stream.filled + s.stream.cursor =
      s.stream.position.toNat := by
    rw [Stream.position]
    omega
  refine ⟨h.moved hunused, ?_, ?_⟩
  · rw [Stream.position_moved]
    omega
  · obtain ⟨byte, hbyte, hfetched⟩ := h.window s.stream.cursor hunused
    rw [List.getD_eq_getElem?_getD, hbyte, Option.getD_some, ← hoffset, hfetched]

section Programs

variable (hsource : source.Orderly)
include hsource

theorem ends_fetchWith (h : s.Traced) (target : Stream.Target) (size nesting : Nat) :
    Ends (Stream.fetchWith source.recorded (Stream.seekNested source.recorded nesting) target size) s
      (fun count t => ∃ data, count = data.map List.length ∧
        Stream.Conversed source.Leads target size s.stream.attempts s (.ok data) t)
      (fun e t => Stream.Conversed source.Leads target size s.stream.attempts s (.error e) t) :=
  Stream.ends_fetchWith_conversed h.ready h.attempts_pos (hsource.relies size _ _) nesting

/-- Filling a window that is used up stays where it was, whether it fails or not. -/
theorem ends_refill (h : s.Traced) (hused : s.stream.filled ≤ s.stream.cursor) (nesting : Nat) :
    Ends (Stream.refill source.recorded (nesting + 1)) s (fun _ t => Filled s t)
      (fun e t => Stopped source s e t ∧ Filled s t) := by
  rw [Stream.ends_refill_succ]
  refine ⟨fun hunused => absurd hunused (Nat.not_lt_of_le hused), fun _ => ?_⟩
  refine (h.ends_fetchWith hsource .window s.stream.maxChunk nesting).mono (fun count t ht => ?_)
    (fun e t ht => ⟨h.stopped ht, ?_⟩)
  · obtain ⟨data, rfl, ht⟩ := ht
    have hcount : (data.map List.length).getD 0 = (Stream.given (.ok data)).length := by
      cases data <;> rfl
    rw [hcount]
    exact h.filled_of_conversed hused ht
  · have hsame : { t with stream := { t.stream with filled := 0 } } = t := by
      rw [← ht.filled]
    rw [← hsame]
    exact h.filled_of_conversed hused ht

/-! ## Seeking -/

/-- Discarding so many bytes from `s` on has come so far that these are left to discard. -/
structure Discarding (s : Session (Recorded σ)) (size left : Int) (t : Session (Recorded σ)) :
    Prop where
  traced : t.Traced
  calls : s.source.calls <+: t.source.calls
  le_position : s.stream.position ≤ t.stream.position
  position : t.stream.position + left = s.stream.position + size

/-- Discarding fails at or after where it begins and no further than it goes. -/
theorem ends_discardWith (h : s.Traced) (nesting : Nat) {fuel : Nat} {size : Int}
    (hfuel : size ≤ fuel) :
    Ends (Stream.discardWith (Stream.refill source.recorded (nesting + 1)) fuel size) s
      (fun _ t => t.Traced)
      (fun e t => Stopped source s e t ∧ s.stream.position ≤ t.stream.position ∧
        t.stream.position ≤ s.stream.position + size) := by
  refine Stream.ends_discardWith_of_turns
    (I := fun fuel left t => Discarding s size left t ∧ left ≤ fuel)
    (J := fun fuel left t => Discarding s size left t ∧ left ≤ fuel + 1 ∧ 0 < left ∧
      t.stream.cursor < t.stream.filled)
    (fun _ _ _ ht _ => ht.1.traced) (fun left t ht hleft => absurd ht.2 (by omega))
    (fun fuel left t ht hleft hunused => ⟨ht.1, ht.2, hleft, hunused⟩) ?used ?step
    ⟨⟨h, List.prefix_refl _, Int.le_refl _, rfl⟩, hfuel⟩
  case used =>
    rintro fuel left t ⟨ht, hfuel⟩ hleft hused
    have hposition := ht.position
    refine (ht.traced.ends_refill hsource hused nesting).mono (fun _ u hu => ?_) (fun e u hu => ?_)
    · have hcursor := hu.cursor
      refine ⟨fun _ => hu.traced, fun hfilled => ⟨⟨hu.traced,
        ht.calls.trans hu.since.calls_prefix, ?_, ?_⟩, hfuel, hleft, by omega⟩⟩
      · exact hu.position ▸ ht.le_position
      · exact hu.position ▸ hposition
    · -- The fetch fails where it began, with something left to discard.
      rw [hu.2.position]
      exact ⟨hu.1.of_earlier ht.calls, ht.le_position, by omega⟩
  case step =>
    rintro fuel left t ⟨ht, hfuel, hleft, hunused⟩
    have hposition := t.position_discarded (Int.le_of_lt hleft)
    have hbefore := ht.position
    have hfrom := ht.le_position
    exact ⟨⟨ht.traced.moved (t.cursor_discarded_le left), ht.calls, by omega, by omega⟩, by omega⟩

/-- Seeking fails between the start of the position's chunk and the position. -/
theorem ends_seek (h : s.Traced) (position : Int) :
    Ends (Stream.seek source.recorded position) s (fun _ t => t.Traced)
      (fun e t => Stopped source s e t ∧
        source.start s.source.state position ≤ t.stream.position ∧ t.stream.position ≤ position) := by
  rw [Stream.ends_seek, Stream.seekNested, Stream.ends_seekWith]
  refine ⟨fun _ => h, fun hpos => ⟨fun hwindow => h.moved (by omega), fun _ => ?_⟩⟩
  have hnonneg : 0 ≤ source.recorded.start s.source position :=
    hsource.start_nonneg s.source.state (Int.not_lt.mp hpos)
  have hle : source.recorded.start s.source position ≤ position :=
    hsource.start_le s.source.state (Int.not_lt.mp hpos)
  have hjump : (s.jumped (source.recorded.start s.source position)).Traced :=
    h.emptied (s.alike_jumped h.ready _) rfl rfl hnonneg
  have hbegin : (s.jumped (source.recorded.start s.source position)).stream.position =
      source.recorded.start s.source position := hjump.position_of_used (Nat.le_refl 0)
  refine ⟨fun hbefore => absurd hbefore (Int.not_lt.mpr hle), fun _ => ?_⟩
  refine (hjump.ends_discardWith hsource _ ?_).mono (fun _ _ ht => ht) (fun e t ht => ?_)
  · rw [Stream.discardFuel]
    have hmore := Nat.zero_le ((s.stream.nesting + 1) * (s.stream.maxChunk + 1))
    omega
  · obtain ⟨hstopped, hfrom, hto⟩ := ht
    rw [hbegin] at hfrom hto
    exact ⟨hstopped.of_earlier (List.prefix_refl _), hfrom, by omega⟩

/-! ## Reading -/

/-- Reading a byte gives the one fetched last for where the stream is, or it fails there. -/
theorem ends_readByte (h : s.Traced) :
    Ends (Stream.readByte source.recorded) s
      (fun byte t => t.Traced ∧ t.stream.position = s.stream.position + byte.toList.length ∧
        ∀ b ∈ byte, t.source.fetched? s.stream.position.toNat = some b)
      (fun e t => Stopped source s e t ∧ t.stream.position = s.stream.position) := by
  have htake : ∀ t : Session (Recorded σ), t.Traced → t.stream.position = s.stream.position →
      ¬ t.stream.filled ≤ t.stream.cursor →
      Traced { t with stream := { t.stream with cursor := t.stream.cursor + 1 } } ∧
        ({ t.stream with cursor := t.stream.cursor + 1 } : Stream).position =
          s.stream.position + 1 ∧
        ∀ b ∈ some (t.stream.window.getD t.stream.cursor 0),
          t.source.fetched? s.stream.position.toNat = some b := by
    intro t ht hposition hunused
    obtain ⟨htaken, hplace, hfetched⟩ := ht.taken (Nat.lt_of_not_le hunused)
    rw [hposition] at hplace hfetched
    exact ⟨htaken, hplace, fun b hb => hfetched.trans hb⟩
  simp only [Stream.readByte, ends_bind, ends_getStream, ends_ite, ends_pure, ends_modifyStream,
    Stream.ends_fill]
  refine ⟨fun hused => ?_, fun hunused => ⟨fun hused => absurd hused hunused, fun _ =>
    htake s h rfl hunused⟩⟩
  refine (h.ends_refill hsource hused _).mono (fun _ t ht => ⟨fun _ => ?_, fun hunused => ?_⟩)
    (fun _ _ ht => ⟨ht.1, ht.2.position⟩)
  · exact ⟨ht.traced, ht.position.trans (Int.add_zero _).symm, fun b hb =>
      absurd hb (Option.not_mem_none b)⟩
  · exact htake t ht.traced ht.position hunused

/-- A single read hands out bytes, or it fails before it handed out any. -/
theorem ends_readOnce (h : s.Traced) {offset size : Nat} (hsize : 0 < size)
    (hroom : offset + size ≤ s.lent.length) :
    Ends (Stream.readOnce source.recorded offset size) s
      (fun count t => Delivered offset (count.getD 0) s t ∧ ∀ n ∈ count, 0 < n ∧ n ≤ size)
      (fun e t => Stopped source s e t ∧ Delivered offset 0 s t) := by
  have hnothing : ∀ n ∈ (none : Option Nat), 0 < n ∧ n ≤ size := fun n hn =>
    absurd hn (Option.not_mem_none n)
  simp only [Stream.readOnce, ends_bind, ends_getStream, ends_ite, ends_pure, Stream.ends_copy,
    Stream.ends_fill, Stream.ends_fetchLent]
  rw [h.available_eq]
  refine ⟨fun hzero => ⟨fun _ => ?past, fun _ => ?through⟩, fun hsome => ?window⟩
  case past =>
    have hused : s.stream.filled ≤ s.stream.cursor := by omega
    refine (h.ends_fetchWith hsource (.lent offset) size _).mono (fun count t ht => ?_)
      (fun e t ht => ⟨h.stopped ht, h.delivered_of_conversed hused hroom ht⟩)
    obtain ⟨data, rfl, ht⟩ := ht
    have hdelivered := h.delivered_of_conversed hused hroom ht
    cases data with
    | none => exact ⟨hdelivered, hnothing⟩
    | some data =>
        refine ⟨hdelivered, fun n hn => ?_⟩
        rw [← Option.mem_some.mp hn]
        exact ⟨List.length_pos_iff.mpr ht.ne_nil, ht.le_size⟩
  case through =>
    refine (h.ends_refill hsource (by omega) _).mono (fun _ t ht => ?_)
      (fun _ t ht => ⟨ht.1, ht.2.delivered offset⟩)
    refine ⟨fun _ => ⟨ht.delivered offset, hnothing⟩, fun hfilled => ?_⟩
    have hcursor := ht.cursor
    have hlent := congrArg List.length ht.lent
    have hcopied := (ht.delivered offset).trans h
      (ht.traced.copied (offset + 0) (n := min t.stream.filled size) (by omega) (by omega))
    rw [Nat.zero_add] at hcopied
    refine ⟨hcopied, fun n hn => ?_⟩
    rw [← Option.mem_some.mp hn]
    omega
  case window =>
    have hcopied := h.copied offset
      (Nat.min_le_left (s.stream.filled - s.stream.cursor) size) (by omega)
    refine ⟨hcopied, fun n hn => ?_⟩
    rw [← Option.mem_some.mp hn]
    omega

/-- Reading up to a size hands out as much as it says, or it fails after some of it. -/
theorem ends_readUpTo (h : s.Traced) {fuel offset size : Nat} (hsize : 0 < size)
    (hroom : offset + size ≤ s.lent.length) :
    Ends (Stream.readUpTo source.recorded fuel offset size) s
      (fun count t => Delivered offset count s t ∧ count ≤ size)
      (fun e t => Stopped source s e t ∧ ∃ count < size, Delivered offset count s t) := by
  refine Stream.ends_readUpTo_of_turns
    (I := fun _ count t => Delivered offset count s t ∧ count < size)
    (fun count t ht => ⟨ht.1, Nat.le_of_lt ht.2⟩) (fun fuel count t ht => ?_)
    ⟨.refl h offset, hsize⟩
  obtain ⟨ht, hless⟩ := ht
  have hroom' : offset + count + (size - count) ≤ t.lent.length := by
    rw [ht.length]
    omega
  refine (ht.traced.ends_readOnce hsource (Nat.sub_pos_of_lt hless) hroom').mono
    (fun more u hu => ?_) (fun e u hu => ⟨hu.1.of_earlier ht.since.calls_prefix, count, hless,
      ht.trans h hu.2⟩)
  obtain ⟨hdelivered, hmore⟩ := hu
  have hall := ht.trans h hdelivered
  refine ⟨fun hnone => ?_, fun n hn => ?_⟩
  · subst hnone
    exact ⟨hall, Nat.le_of_lt hless⟩
  · subst hn
    have hle := (hmore n rfl).2
    exact ⟨fun _ => ⟨hall, by omega⟩, fun hless => ⟨hall, hless⟩⟩

/-- A read of a range of the lent buffer hands out as much as it says, or it fails after some of
it. -/
theorem ends_read (h : s.Traced) {offset size : Nat} (hroom : offset + size ≤ s.lent.length) :
    Ends (Stream.read source.recorded offset size) s
      (fun r t => ∃ count ≤ size, r = (if count = 0 ∧ size ≠ 0 then none else some count) ∧
        Delivered offset count s t)
      (fun e t => Stopped source s e t ∧ ∃ count < size, Delivered offset count s t) := by
  simp only [Stream.read, ends_bind, ends_get, ends_ite, ends_pure, ends_throw]
  refine ⟨fun hrange => absurd hrange (by omega), fun _ => ⟨fun hzero => ?_, fun hsome => ?_⟩⟩
  · exact ⟨0, Nat.zero_le _, (if_neg fun h => h.2 hzero).symm, .refl h offset⟩
  refine (h.ends_readUpTo hsource (Nat.pos_of_ne_zero hsome) hroom).mono (fun count t ht => ?_)
    (fun _ _ ht => ht)
  exact ⟨count, ht.2, by simp only [hsome, ne_eq, not_false_eq_true, and_true], ht.1⟩

/-- Every operation keeps the window traced, also one that fails. -/
theorem keeps (operation : Operation) :
    Keeps (Traced (σ := σ)) (operation.perform source.recorded) := by
  refine Operation.keeps_perform ?byte ?read ?seek ?switch operation ?lend ?verify
  case byte =>
    intro s h
    exact (h.ends_readByte hsource).mono (fun _ _ ht => ht.1) (fun _ _ ht => ht.1.traced)
  case read =>
    intro offset size s h
    by_cases hroom : offset + size ≤ s.lent.length
    · exact (h.ends_read hsource hroom).mono (fun _ _ ⟨_, _, _, ht⟩ => ht.traced)
        (fun _ _ ht => ht.1.traced)
    · have hrefused : Ends ((Stream.seekable source.recorded).read offset size) s
          (fun _ _ => False) (fun e t => e = .outsideBuffer ∧ t = s) :=
        Stream.ends_read_of_outside (Nat.lt_of_not_le hroom)
      exact (Stream.ends_seekable_read.mp hrefused).mono (fun _ _ hfalse => hfalse.elim)
        (fun _ _ ht => ht.2 ▸ h)
  case seek =>
    intro position s h
    exact (h.ends_seek hsource position).mono (fun _ _ ht => ht) (fun _ _ ht => ht.1.traced)
  case switch =>
    intro position s h
    exact h.altered h.cursor_le s.stream.verify (.push _ _ fun _ _ => rfl) s.lent _
  case lend => exact fun buffer _ s h => h.lending buffer
  case verify => exact fun verify _ s h => h.altered h.cursor_le verify (.refl _) s.lent s.events

end Programs

/-- A stream that was just built has nothing in its window. -/
theorem of_new {checksum : Option Algorithm} {options : Options} {stream : Stream}
    (hstream : Stream.ofOptions? checksum options = .ok stream)
    (hchunk : options.maxChunk < Word.count) (x : σ) :
    Traced { stream, source := { state := x } } := by
  have hready := Stream.ready_of_ofOptions? hstream
  obtain ⟨-, hattempts, rfl⟩ := Stream.eq_of_ofOptions? hstream
  exact ⟨hready, hattempts, hchunk, Nat.le_refl 0, Int.le_refl 0, Nat.zero_le _, fun i hi =>
    absurd hi (Nat.not_lt_zero i)⟩

/-- What was fetched doesn't depend on what the source went on to. -/
theorem changed (h : s.Traced) (verify : Bool) {x : Recorded σ} (hx : x.calls = s.source.calls) :
    Traced { s with source := x, stream := { s.stream with verify } } :=
  h.altered h.cursor_le verify (.of_calls hx _) s.lent s.events

end Session.Traced

/-! ## Going on -/

/-- The session came from another one by reads into a buffer. Each read goes on where the stream
stopped, whether the read before failed or not, and in between anything may happen to what the source
holds, and verification may be turned on or off. -/
inductive Session.ReadOn (source : Source σ) (offset : Nat) (s : Session (Recorded σ)) :
    Session (Recorded σ) → Prop where
  | start : ReadOn source offset s s
  | read {t : Session (Recorded σ)} {count : Nat} (size : Nat) :
      ReadOn source offset s t → t.stream.position = s.stream.position + count →
      offset + count + size ≤ t.lent.length →
      ReadOn source offset s ((Operation.read t.lent (offset + count) size).after source.recorded t)
  | change {t : Session (Recorded σ)} (verify : Bool) (x : Recorded σ) :
      ReadOn source offset s t → x.calls = t.source.calls →
      ReadOn source offset s { t with source := x, stream := { t.stream with verify } }

/-- Reads that go on where the stream stopped hand out the bytes from where the first one began, in
their order, none left out and none twice. -/
theorem Session.ReadOn.delivered {source : Source σ} (hsource : source.Orderly) {offset : Nat}
    {s t : Session (Recorded σ)} (h : ReadOn source offset s t) (hs : s.Traced) :
    ∃ count, Traced.Delivered offset count s t := by
  induction h with
  | start => exact ⟨0, .refl hs offset⟩
  | @read t count size _ hposition hroom ih =>
      obtain ⟨done, ht⟩ := ih
      -- Both counts say where the stream stopped.
      obtain rfl : done = count := by
        have hplace := ht.position
        omega
      refine Operation.after_of_ends (I := fun u => ∃ count, Traced.Delivered offset count s u) ?_
      simp only [Operation.perform, ends_bind, ends_pure, Operation.ends_lend,
        Stream.ends_seekable_read]
      refine (ht.traced.ends_read hsource hroom).mono (fun _ u hu => ?_) (fun _ u hu => ?_)
      · obtain ⟨n, -, -, hu⟩ := hu
        exact ⟨_, ht.trans hs hu⟩
      · obtain ⟨-, n, -, hu⟩ := hu
        exact ⟨_, ht.trans hs hu⟩
  | @change t verify x _ hx ih =>
      obtain ⟨done, ht⟩ := ih
      refine ⟨done, ht.traced.changed verify hx, ht.position, ht.length, ht.before, fun i hi => ?_,
        ht.since.trans (.of_calls hx _)⟩
      obtain ⟨byte, hbyte, hfetched⟩ := ht.bytes i hi
      exact ⟨byte, hbyte, ((Recorded.Since.of_calls hx _).fetched?_eq (Nat.lt_succ_self _)).trans
        hfetched⟩

/-- What the operations of a session leave when they fail. -/
structure Session.Resumable (source : Source σ) (s : Session (Recorded σ)) : Prop where
  position_nonneg : 0 ≤ s.stream.position
  /-- A byte is the one fetched last for where the stream is, and a failure stays there. -/
  readByte : Ends (Operation.readByte.perform source.recorded) s
    (fun outcome t => ∃ byte, outcome = .byte byte ∧
      t.stream.position = s.stream.position + byte.toList.length ∧
      ∀ b ∈ byte, t.source.fetched? s.stream.position.toNat = some b)
    (fun e t => Stopped source s e t ∧ t.stream.position = s.stream.position)
  /-- A read fails after some of its bytes, where the fetch began that failed. -/
  read : ∀ buffer offset size, offset + size ≤ buffer.length →
    Ends ((Operation.read buffer offset size).perform source.recorded) s
      (fun outcome t => ∃ count ≤ size,
        outcome = .count (if count = 0 ∧ size ≠ 0 then -1 else count) ∧
        Traced.Delivered offset count { s with lent := buffer } t)
      (fun e t => Stopped source s e t ∧
        ∃ count < size, Traced.Delivered offset count { s with lent := buffer } t)
  /-- Reading on from there, as often as it takes, gives the bytes that follow. -/
  readOn : ∀ buffer offset t, ReadOn source offset { s with lent := buffer } t →
    ∃ count, Traced.Delivered offset count { s with lent := buffer } t
  seek : ∀ position, Ends ((Operation.seek position).perform source.recorded) s (fun _ _ => True)
    (fun e t => Stopped source s e t ∧
      source.start s.source.state position ≤ t.stream.position ∧ t.stream.position ≤ position)
  skip : ∀ count position,
    position = (if Word.maxSigned - s.stream.position < count then Word.maxSigned
      else s.stream.position + count) →
    Ends ((Operation.skip count).perform source.recorded) s (fun _ _ => True)
      (fun e t => Stopped source s e t ∧
        source.start s.source.state position ≤ t.stream.position ∧ t.stream.position ≤ position)
  outside : ∀ operation : Operation, operation.Outside → operation.perform source.recorded s =
    .error .outsideBuffer { s with lent := operation.buffer?.getD s.lent }

theorem Session.Traced.resumable {source : Source σ} (hsource : source.Orderly)
    {s : Session (Recorded σ)} (h : s.Traced) : s.Resumable source where
  position_nonneg := h.position_nonneg
  readByte := by
    simp only [Operation.perform, ends_bind, ends_pure]
    exact (h.ends_readByte hsource).mono (fun byte _ ht => ⟨byte, rfl, ht.2⟩) (fun _ _ ht => ht)
  read buffer offset size hroom := by
    simp only [Operation.perform, ends_bind, ends_pure, Operation.ends_lend,
      Stream.ends_seekable_read]
    refine ((h.lending buffer).ends_read hsource hroom).mono (fun _ t ht => ?_)
      (fun e t ht => ⟨ht.1.of_earlier (List.prefix_refl _), ht.2⟩)
    obtain ⟨count, hle, rfl, ht⟩ := ht
    refine ⟨count, hle, congrArg Outcome.count ?_, ht⟩
    split <;> rfl
  readOn buffer offset t ht := ht.delivered hsource (h.lending buffer)
  seek position := by
    simp only [Operation.perform, ends_bind, ends_pure]
    exact (h.ends_seek hsource position).mono (fun _ _ _ => trivial) (fun _ _ ht => ht)
  skip count position hposition := by
    simp only [Operation.perform, Stream.skip, ends_bind, ends_pure, ends_ite, ends_getStream]
    refine ⟨fun _ => trivial, fun _ => ?_⟩
    rw [← hposition]
    exact (h.ends_seek hsource position).mono (fun _ _ _ => trivial) (fun _ _ ht => ht)
  outside operation houtside := Operation.perform_of_outside houtside _ s

/-- Whatever was done with a stream over replicas, and however these changed on the way, a failure
leaves it where it can go on. Reading a byte fails where the stream is. A read fails where the fetch
began that failed, with nothing in the window and with the bytes before it in the buffer, so reading
on from there gives the bytes that follow. A seek fails in the chunk that it goes to, at or before its
position. A range outside of the buffer is refused before anything is done. -/
theorem resumable_of_reaches {checksum : Option Algorithm} {options : Options}
    {replicas : Replicas} {stream : Stream} {t : Session (Recorded Replicas)}
    (hstream : Stream.ofOptions? checksum options = .ok stream)
    (hchunk : options.maxChunk < Word.count)
    (ht : Session.Reaches Replicas.source.recorded (fun _ => True)
      (fun x y => y.calls = x.calls) { stream, source := { state := replicas } } t) :
    t.Resumable Replicas.source := by
  have htraced : t.Traced := ht.keeps (.of_new hstream hchunk replicas)
    (fun operation _ => Session.Traced.keeps Replicas.orderly_source operation)
    (fun t x h hx => h.changed t.stream.verify hx)
  exact htraced.resumable Replicas.orderly_source

/-- A read gets a byte from the window and fails at the damaged chunk after it. What it fetched there
stays in the buffer, past the byte. Once the chunk is repaired, reading on completes the range. -/
theorem resumable_after_damage :
    let sums := Sidecar.ofBytes .crc32 2 [1, 2, 3, 4]
    let replicas : Replicas :=
      { list := [⟨{ bytes := [1, 2, 9, 4] }, { bytes := sums }⟩], chunk := 2 }
    let repaired : Replicas :=
      { list := [⟨{ bytes := [1, 2, 3, 4] }, { bytes := sums }⟩], chunk := 2 }
    ∃ stream t, Stream.ofOptions? (some .crc32) { maxChunk := 2 } = .ok stream ∧
      Operation.readByte.after Replicas.source.recorded
        { stream, source := { state := replicas } } = t ∧
      t.Resumable Replicas.source ∧
      Ends ((Operation.read (Bytes.zeros 4) 0 3).perform Replicas.source.recorded) t
        (fun _ _ => False)
        (fun e u => u.stream.position = 2 ∧ u.lent = [2, 9, 4, 0] ∧
          Session.Stopped Replicas.source t e u ∧
          Session.Traced.Delivered 0 1 { t with lent := Bytes.zeros 4 } u ∧
          Ends ((Operation.read u.lent 1 2).perform Replicas.source.recorded)
            { u with source := ⟨repaired, u.source.calls⟩ }
            (fun outcome v => outcome = .count 2 ∧ v.lent = [2, 3, 4, 0]) (fun _ _ => False)) := by
  intro sums replicas repaired
  have hstream : Stream.ofOptions? (some .crc32) { maxChunk := 2 } = .ok _ := rfl
  refine ⟨_, _, hstream, rfl, ?_⟩
  generalize ht : Operation.readByte.after (Replicas.source : Source Replicas).recorded _ = t
  have hresumable : t.Resumable Replicas.source := by
    rw [← ht]
    exact resumable_of_reaches hstream (by decide) (.perform .readByte .refl trivial)
  have hrun : t.stream.position = 1 ∧
      Ends ((Operation.read (Bytes.zeros 4) 0 3).perform Replicas.source.recorded) t
        (fun _ _ => False)
        (fun _ u => u.stream.position = 2 ∧ u.lent = [2, 9, 4, 0] ∧
          Ends ((Operation.read u.lent 1 2).perform Replicas.source.recorded)
            { u with source := ⟨repaired, u.source.calls⟩ }
            (fun outcome v => outcome = .count 2 ∧ v.lent = [2, 3, 4, 0]) (fun _ _ => False)) := by
    rw [← ht]
    decide +kernel
  obtain ⟨hposition, hrun⟩ := hrun
  refine ⟨hresumable, (hrun.and (hresumable.read (Bytes.zeros 4) 0 3 (by decide))).mono
    (fun _ _ hu => hu.1) (fun e u hu => ?_)⟩
  obtain ⟨⟨hplace, hlent, hon⟩, hstopped, count, -, hdelivered⟩ := hu
  obtain rfl : count = 1 := by
    have hmoved : u.stream.position = t.stream.position + count := hdelivered.position
    omega
  exact ⟨hplace, hlent, hstopped, hdelivered, hon⟩

end ChunkGuard
