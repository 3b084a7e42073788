import ChunkGuard.Proofs.Undamaged
import ChunkGuard.Stream.Cursor

/-!
# Streams that show a cursor

A session shows a cursor when its replicas hold the cursor's data and its window lies where the
cursor is (`Session.Shows`). Filling the window shows the same cursor, and each of the programs
that move a stream, down to `Stream.read` and `Stream.seek`, comes to show the cursor that moved
in the same way.
-/

namespace ChunkGuard

/-- The window lies around the cursor's position and holds the cursor's data. The source is read
next at the start of a chunk, if it has to be. -/
structure Stream.Views (c : Cursor) (s : Stream) : Prop where
  cursor_le : s.cursor ≤ s.filled
  cursor_le_position : s.cursor ≤ c.position
  next_eq : s.next = (c.position + (s.filled - s.cursor) : Nat)
  inside : 0 < s.filled → c.position + (s.filled - s.cursor) ≤ c.data.length
  window : ∀ i < s.filled, s.window[i]? = c.data[c.position - s.cursor + i]?
  aligned : s.needsChecksum →
    (c.position + (s.filled - s.cursor)) % c.chunk = 0 ∨
      c.data.length ≤ c.position + (s.filled - s.cursor)

/-- The session is on undamaged replicas of the cursor's data, at the cursor's position. -/
structure Session.Shows (a : Algorithm) (c : Cursor) (s : Session Replicas) : Prop where
  fits : s.stream.Fits a c.chunk
  replicas : s.source.Hold a c.chunk c.data
  copies : c.copies + 1 + s.source.current = s.source.list.length
  lent : s.lent = c.lent
  view : s.stream.Views c
  settled : c.data.length < c.position → c.position % c.chunk = 0

/-- Going to a position goes to the start of its chunk and then on towards it, as far as there are
bytes. -/
theorem Cursor.goTo_eq (c : Cursor) (position : Nat) :
    c.goTo position =
      { c with
        position := max (position - position % c.chunk) (min position c.data.length) } := by
  have hmod := Nat.mod_le position c.chunk
  rw [goTo]
  by_cases hinside : position ≤ c.data.length
  · have hposition : max (position - position % c.chunk) (min position c.data.length) =
        position := by omega
    rw [if_pos hinside, hposition]
  · have hposition : max (position - position % c.chunk) (min position c.data.length) =
        max c.data.length (position - position % c.chunk) := by omega
    rw [if_neg hinside, hposition]

namespace Session.Shows

variable {a : Algorithm} {c : Cursor} {s : Session Replicas}

theorem position_eq (h : s.Shows a c) : s.stream.position = c.position := by
  have hnext := h.view.next_eq
  have hle := h.view.cursor_le
  rw [Stream.position]
  omega

/-- A window that is used up ends where the cursor is. -/
theorem next_of_used (h : s.Shows a c) (hused : s.stream.filled ≤ s.stream.cursor) :
    s.stream.next = c.position ∧
      (s.stream.needsChecksum → c.position % c.chunk = 0 ∨ c.data.length ≤ c.position) := by
  have hview := h.view
  have hzero : c.position + (s.stream.filled - s.stream.cursor) = c.position := by omega
  refine ⟨?_, ?_⟩
  · rw [hview.next_eq, hzero]
  · have haligned := hview.aligned
    rwa [hzero] at haligned

/-- The number of bytes left in the window doesn't wrap. -/
theorem available_eq (h : s.Shows a c) :
    s.stream.available = s.stream.filled - s.stream.cursor := by
  have hview := h.view
  have hsmall := h.replicas.small
  have hle := hview.cursor_le
  have hbefore := hview.cursor_le_position
  have hfilled : s.stream.filled - s.stream.cursor < Word.count := by
    have hhalf : Word.half + Word.half = Word.count := rfl
    by_cases hsome : 0 < s.stream.filled
    · have hinside := hview.inside hsome
      omega
    · have hpos : 0 < Word.half := by decide
      omega
  rw [Stream.available_eq_mod hle, Nat.mod_eq_of_lt hfilled]

/-! ## Moving in the window -/

/-- Moving in the window moves the cursor. -/
theorem moved (h : s.Shows a c) {n : Nat} (hn : n ≤ s.stream.filled) :
    Shows a { c with position := c.position - s.stream.cursor + n }
      { s with stream := { s.stream with cursor := n } } := by
  have hview := h.view
  have hle := hview.cursor_le
  have hbefore := hview.cursor_le_position
  have hend : c.position - s.stream.cursor + n + (s.stream.filled - n) =
      c.position + (s.stream.filled - s.stream.cursor) := by omega
  refine ⟨h.fits.alike .placed, h.replicas, h.copies, h.lent,
    ⟨hn, Nat.le_add_left _ _, ?_, ?_, ?_, ?_⟩, fun hpast => ?_⟩
  · exact hview.next_eq.trans (congrArg Nat.cast hend.symm)
  · exact fun hsome => hend ▸ hview.inside hsome
  · intro i hi
    have hstart : c.position - s.stream.cursor + n - n = c.position - s.stream.cursor := by omega
    rw [hstart]
    exact hview.window i hi
  · exact fun hneeds => hend ▸ hview.aligned hneeds
  · have hpast : c.data.length < c.position - s.stream.cursor + n := hpast
    by_cases hsome : 0 < s.stream.filled
    · have hinside := hview.inside hsome
      omega
    · -- An empty window leaves nowhere to move to.
      have hsame : c.position - s.stream.cursor + n = c.position := by omega
      show (c.position - s.stream.cursor + n) % c.chunk = 0
      rw [hsame] at hpast ⊢
      exact h.settled hpast

/-- Going forward in the window moves the cursor by as much. -/
theorem forward (h : s.Shows a c) {n : Nat} (hn : n ≤ s.stream.filled - s.stream.cursor) :
    Shows a { c with position := c.position + n }
      { s with stream := { s.stream with cursor := s.stream.cursor + n } } := by
  have hle := h.view.cursor_le
  have hbefore := h.view.cursor_le_position
  have hmoved := h.moved (n := s.stream.cursor + n) (by omega)
  have hposition : c.position - s.stream.cursor + (s.stream.cursor + n) = c.position + n := by
    omega
  rwa [hposition] at hmoved

/-- The bytes left in the window are those after the cursor. -/
theorem padded_window (h : s.Shows a c) {n : Nat} (hn : n ≤ s.stream.filled - s.stream.cursor) :
    Bytes.padded s.stream.cursor n s.stream.window = Bytes.slice c.position n c.data := by
  have hview := h.view
  have hle := hview.cursor_le
  have hbefore := hview.cursor_le_position
  refine Bytes.padded_eq_slice (fun i hi => ?_) (fun hpos => ?_)
  · rw [hview.window _ (by omega)]
    congr 1
    omega
  · have hinside := hview.inside (by omega)
    omega

/-! ## Filling the window -/

/-- A fetch from the cursor's position, with the window used up. -/
theorem ends_fetchWith (h : s.Shows a c) (hused : s.stream.filled ≤ s.stream.cursor)
    (target : Stream.Target) {size : Nat} (hsize : 0 < size)
    (hwhole : s.stream.needsChecksum → c.chunk ≤ size) (reseek : Int → StreamM Replicas Unit) :
    Ends (Stream.fetchWith Replicas.source reseek target size) s
      (Stream.Fetched c.chunk c.data c.position target size s.cleared) (fun _ _ => False) := by
  obtain ⟨hnext, haligned⟩ := h.next_of_used hused
  exact h.replicas.ends_fetchWith h.fits hnext haligned hsize hwhole reseek

/-- An empty window shows the cursor wherever the source may be read next. -/
theorem emptied (h : s.Shows a c) (hused : s.stream.filled ≤ s.stream.cursor) {x : Replicas}
    (hx : s.source.Reread x) :
    Shows a c { s.cleared with source := x } := by
  obtain ⟨hnext, haligned⟩ := h.next_of_used hused
  refine ⟨h.fits.alike s.alike_cleared, h.replicas.reread hx, ?_, h.lent,
    ⟨Nat.le_refl 0, Nat.zero_le _, hnext, fun hsome => absurd hsome (Nat.lt_irrefl 0),
      fun i hi => absurd hi (Nat.not_lt_zero i), haligned⟩, h.settled⟩
  show c.copies + 1 + x.current = x.list.length
  rw [hx.current, hx.length]
  exact h.copies

/-- Filling the window shows the cursor as before, and only at the end of the data the window
stays empty. -/
theorem ends_refill (h : s.Shows a c) (hused : s.stream.filled ≤ s.stream.cursor)
    (nesting : Nat) :
    Ends (Stream.refill Replicas.source (nesting + 1)) s
      (fun _ t => t.Shows a c ∧ t.stream.cursor = 0 ∧
        (t.stream.filled = 0 → c.data.length ≤ c.position) ∧ s.stream.Alike t.stream)
      (fun _ _ => False) := by
  rw [Stream.ends_refill_succ]
  have hwhole : s.stream.needsChecksum → c.chunk ≤ s.stream.maxChunk := fun hneeds =>
    Nat.le_of_eq (h.fits.maxChunk_eq hneeds).symm
  refine ⟨fun hunused => absurd hunused (Nat.not_lt_of_le hused), fun _ => ?_⟩
  refine (h.ends_fetchWith hused .window h.fits.maxChunk_pos hwhole _).mono
    (fun count t ht => ?_) (fun _ _ hfalse => hfalse)
  cases ht with
  | ended x hend hx =>
      exact ⟨h.emptied hused hx, rfl, fun _ => hend, s.alike_cleared⟩
  | part n sums x hpos hle hinside hwhole hx =>
      have hempty := h.emptied hused hx
      have hlength : (Bytes.slice c.position n c.data).length = n := by
        rw [Bytes.length_slice]
        omega
      have halike := s.alike_cleared.trans
        (Stream.Alike.received .window (Bytes.slice c.position n c.data) sums x s.cleared)
      have hafter := halike.trans (u := { (s.cleared.received .window
        (Bytes.slice c.position n c.data) sums x).stream with
          next := s.stream.next + n, filled := n }) .placed
      refine ⟨⟨h.fits.alike hafter, hempty.replicas, hempty.copies, h.lent, ?_, h.settled⟩, rfl,
        fun hzero => absurd hzero (Nat.ne_of_gt hpos), hafter⟩
      refine ⟨Nat.zero_le n, Nat.zero_le _, ?_, fun _ => hinside, fun i hi => ?_, fun hneeds => ?_⟩
      · show s.stream.next + n = (c.position + n : Nat)
        rw [(h.next_of_used hused).1]
        rfl
      · have hi : i < n := hi
        show (Bytes.write 0 (Bytes.slice c.position n c.data) s.stream.window)[i]? = _
        rw [Bytes.getElem?_write, if_neg (Nat.not_lt_zero i), if_pos (by omega), Nat.sub_zero,
          Bytes.getElem?_slice, if_pos hi]
        rfl
      · have hneeds : s.stream.needsChecksum := hafter.needsChecksum.symm.trans hneeds
        obtain hend | hend := hwhole hneeds
        · exact .inl hend
        · exact .inr (Nat.le_of_eq hend.symm)

/-! ## Seeking -/

/-- Handing out what is left of the window moves the cursor by as much. -/
theorem discarded (h : s.Shows a c) {size : Int} {n : Nat}
    (hn : min ((s.stream.filled : Int) - s.stream.cursor) size = n) :
    Shows a { c with position := c.position + n } (s.discarded size) := by
  have hcursor : ((s.stream.cursor : Int) + n).toNat = s.stream.cursor + n := by omega
  rw [Session.discarded, hn, hcursor]
  exact h.forward (by omega)

/-- Discarding bytes moves the cursor forward, at most to the end of the data. -/
theorem ends_discardWith (h : s.Shows a c) (nesting fuel : Nat) {size : Int}
    (hsize : 0 ≤ size) (hfuel : size ≤ fuel) :
    Ends (Stream.discardWith (Stream.refill Replicas.source (nesting + 1)) fuel size) s
      (fun _ t => t.Shows a
        { c with position := max c.position (min (c.position + size.toNat) c.data.length) })
      (fun _ _ => False) := by
  -- Where the cursor is and what is left to discard lead to the same position in every turn.
  refine Stream.ends_discardWith_of_turns
    (I := fun fuel left t => ∃ p, t.Shows a { c with position := p } ∧ 0 ≤ left ∧ left ≤ fuel ∧
      max p (min (p + left.toNat) c.data.length) =
        max c.position (min (c.position + size.toNat) c.data.length))
    (J := fun fuel left t => ∃ p, t.Shows a { c with position := p } ∧ 0 < left ∧
      left ≤ fuel + 1 ∧ t.stream.cursor < t.stream.filled ∧
      max p (min (p + left.toNat) c.data.length) =
        max c.position (min (c.position + size.toNat) c.data.length))
    ?done ?spent ?unused ?used ?step ⟨c.position, h, hsize, hfuel, rfl⟩
  case done =>
    rintro fuel left t ⟨p, ht, hleft, -, hgoal⟩ hdone
    have hposition : p = max c.position (min (c.position + size.toNat) c.data.length) := by omega
    exact hposition ▸ ht
  case spent =>
    rintro left t ⟨p, -, -, hfuel, -⟩ hleft
    omega
  case unused =>
    rintro fuel left t ⟨p, ht, -, hfuel, hgoal⟩ hleft hunused
    exact ⟨p, ht, hleft, hfuel, hunused, hgoal⟩
  case used =>
    rintro fuel left t ⟨p, ht, -, hfuel, hgoal⟩ hleft hused
    refine (ht.ends_refill hused nesting).mono (fun _ u hu => ?_) (fun _ _ hfalse => hfalse)
    obtain ⟨hshows, hcursor, hend, -⟩ := hu
    refine ⟨fun hempty => ?_, fun hsome => ⟨p, hshows, hleft, hfuel, by omega, hgoal⟩⟩
    have hend : c.data.length ≤ p := hend hempty
    have hposition : p = max c.position (min (c.position + size.toNat) c.data.length) := by omega
    exact hposition ▸ hshows
  case step =>
    rintro fuel left t ⟨p, ht, hleft, hfuel, hunused, hgoal⟩
    obtain ⟨n, hn⟩ : ∃ n : Nat, min ((t.stream.filled : Int) - t.stream.cursor) left = n :=
      ⟨(min ((t.stream.filled : Int) - t.stream.cursor) left).toNat, by omega⟩
    have hinside : p + (t.stream.filled - t.stream.cursor) ≤ c.data.length :=
      ht.view.inside (by omega)
    rw [hn]
    exact ⟨p + n, ht.discarded hn, by omega, by omega, by omega⟩

/-- Leaving the window for the start of a chunk shows the cursor there, wherever the source would
have been read before. -/
theorem of_jumped (hfits : s.stream.Fits a c.chunk) (hreplicas : s.source.Hold a c.chunk c.data)
    (hcopies : c.copies + 1 + s.source.current = s.source.list.length) (hlent : s.lent = c.lent)
    {position : Nat} (haligned : position % c.chunk = 0) :
    Shows a { c with position } (s.jumped position) := by
  refine ⟨hfits.alike (s.alike_jumped hfits.ready _), hreplicas, hcopies, hlent,
    ⟨Nat.le_refl 0, Nat.zero_le _, rfl, fun hsome => absurd hsome (Nat.lt_irrefl 0),
      fun i hi => absurd hi (Nat.not_lt_zero i), fun _ => .inl haligned⟩, fun _ => haligned⟩

/-- Seeking past the window starts at the chunk of the position, so it goes where the cursor goes,
wherever the source would have been read before. -/
theorem ends_seekNested_outside (hfits : s.stream.Fits a c.chunk)
    (hreplicas : s.source.Hold a c.chunk c.data)
    (hcopies : c.copies + 1 + s.source.current = s.source.list.length) (hlent : s.lent = c.lent)
    {position : Nat}
    (houtside : ¬ (s.stream.next - s.stream.filled ≤ position ∧ position < s.stream.next))
    (nesting : Nat) :
    Ends (Stream.seekNested Replicas.source (nesting + 1) position) s
      (fun _ t => t.Shows a (c.goTo position)) (fun _ _ => False) := by
  have hsmall := hreplicas.small
  have hmod := Nat.mod_le position c.chunk
  have hstart : Replicas.source.start s.source position =
      (position - position % c.chunk : Nat) := by
    show Chunk.start s.source.chunk position = _
    rw [hreplicas.chunk_eq, Chunk.start_natCast hsmall.2]
  have hjump : Shows a { c with position := position - position % c.chunk }
      (s.jumped (position - position % c.chunk : Nat)) :=
    of_jumped hfits hreplicas hcopies hlent (Nat.sub_mod_eq_zero_of_mod_eq (Nat.mod_mod _ _).symm)
  have hsize : (position : Int) - (position - position % c.chunk : Nat) =
      (position % c.chunk : Nat) := by omega
  have hremainder : (0 : Int) ≤ (position % c.chunk : Nat) := Int.natCast_nonneg _
  have hdiscard := hjump.ends_discardWith nesting
    (s.stream.discardFuel (position % c.chunk : Nat)) hremainder
    (by rw [Stream.discardFuel]; omega)
  rw [Int.toNat_natCast, Nat.sub_add_cancel hmod, ← c.goTo_eq] at hdiscard
  rw [Stream.seekNested, Stream.ends_seekWith, hstart, hsize]
  exact ⟨fun hnegative => absurd hnegative (by omega), fun _ => ⟨fun hinside =>
    absurd hinside houtside, fun _ => ⟨fun hbefore => absurd hbefore (by omega), fun _ => hdiscard⟩⟩⟩

/-- Seeking inside of the window moves the cursor there. -/
theorem moved_inside (h : s.Shows a c) {position : Nat}
    (hinside : s.stream.next - s.stream.filled ≤ position ∧ position < s.stream.next) :
    Shows a (c.goTo position)
      { s with
        stream := { s.stream with
          cursor := ((position : Int) - (s.stream.next - s.stream.filled)).toNat } } := by
  have hview := h.view
  have hnext := hview.next_eq
  have hle := hview.cursor_le
  have hbefore := hview.cursor_le_position
  have hend := hview.inside (by omega)
  have hcursor : ((position : Int) - (s.stream.next - s.stream.filled)).toNat =
      position - (c.position - s.stream.cursor) := by omega
  rw [hcursor]
  have hmoved := h.moved (n := position - (c.position - s.stream.cursor)) (by omega)
  have hposition : c.position - s.stream.cursor + (position - (c.position - s.stream.cursor)) =
      position := by omega
  rw [hposition] at hmoved
  rw [Cursor.goTo, if_pos (by omega)]
  exact hmoved

/-- Seeking goes where the cursor goes. -/
theorem ends_seek (h : s.Shows a c) (position : Nat) :
    Ends (Stream.seek Replicas.source position) s
      (fun _ t => t.Shows a (c.goTo position)) (fun _ _ => False) := by
  rw [Stream.ends_seek]
  by_cases hinside : s.stream.next - s.stream.filled ≤ position ∧ position < s.stream.next
  · rw [Stream.seekNested, Stream.ends_seekWith]
    exact ⟨fun hnegative => absurd hnegative (by omega), fun _ => ⟨fun _ => h.moved_inside hinside,
      fun houtside => absurd hinside houtside⟩⟩
  · exact ends_seekNested_outside h.fits h.replicas h.copies h.lent hinside _

end Session.Shows

end ChunkGuard
