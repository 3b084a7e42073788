import ChunkGuard.Proofs.Showing

/-!
# Reading where a cursor is

Reads of a session that shows a cursor give the bytes after the cursor, through the window and past
it, and show the cursor that took them (`Session.Shows.ends_read`). Complete and positioned reads
follow from this and from `Session.Shows.ends_seek`.
-/

namespace ChunkGuard

namespace Cursor

/-- How many of `size` bytes there are after the cursor. -/
def left (size : Nat) (c : Cursor) : Nat := min size (c.data.length - c.position)

/-- The cursor after it took bytes into the lent buffer. -/
def taken (offset n : Nat) (c : Cursor) : Cursor :=
  { c with
    position := c.position + n
    lent := Bytes.write offset (Bytes.slice c.position n c.data) c.lent }

/-- The cursor after bytes from a position on were copied to the lent buffer. -/
def peeked (position offset n : Nat) (c : Cursor) : Cursor :=
  { c with lent := Bytes.write offset (Bytes.slice position n c.data) c.lent }

theorem taken_zero {offset : Nat} {c : Cursor} (h : offset ≤ c.lent.length) :
    c.taken offset 0 = c := by
  have hnone : Bytes.slice c.position 0 c.data = [] := List.take_zero
  rw [taken, hnone, Bytes.write_nil h]
  rfl

theorem peeked_zero {position offset : Nat} {c : Cursor} (h : offset ≤ c.lent.length) :
    c.peeked position offset 0 = c := by
  have hnone : Bytes.slice position 0 c.data = [] := List.take_zero
  rw [peeked, hnone, Bytes.write_nil h]

/-- Only the bytes that there are get copied. -/
theorem peeked_min (position offset size : Nat) (c : Cursor) :
    c.peeked position offset (min size (c.data.length - position)) =
      c.peeked position offset size := by
  rw [peeked, peeked, Bytes.slice_min]

/-- What there is after the cursor is taken as a slice of the data. -/
theorem taken_left (offset size : Nat) (c : Cursor) :
    c.taken offset (c.left size) =
      { c with
        position := c.position + (Bytes.slice c.position size c.data).length
        lent := Bytes.write offset (Bytes.slice c.position size c.data) c.lent } := by
  rw [taken, left, Bytes.slice_min, Bytes.length_slice]

/-- Bytes copied one after the other are as if copied at once. -/
theorem peeked_peeked {position n : Nat} {c : Cursor} (h : n ≤ c.data.length - position)
    (offset m : Nat) :
    (c.peeked position offset n).peeked (position + n) (offset + n) m =
      c.peeked position offset (n + m) := by
  have hlength : (Bytes.slice position n c.data).length = n := by
    rw [Bytes.length_slice]
    omega
  have hlent : Bytes.write (offset + n) (Bytes.slice (position + n) m c.data)
      (Bytes.write offset (Bytes.slice position n c.data) c.lent) =
      Bytes.write offset (Bytes.slice position (n + m) c.data) c.lent := by
    rw [Bytes.slice_add, ← Bytes.write_append, hlength]
  rw [peeked, peeked, peeked, hlent]

/-- Bytes taken one after the other are as if taken at once. -/
theorem taken_taken {offset n : Nat} {c : Cursor} (h : n ≤ c.data.length - c.position) (m : Nat) :
    (c.taken offset n).taken (offset + n) m = c.taken offset (n + m) := by
  have hlent := congrArg Cursor.lent (peeked_peeked h offset m)
  have hlent : Bytes.write (offset + n) (Bytes.slice (c.position + n) m c.data)
      (Bytes.write offset (Bytes.slice c.position n c.data) c.lent) =
      Bytes.write offset (Bytes.slice c.position (n + m) c.data) c.lent := hlent
  rw [taken, taken, taken, hlent, Nat.add_assoc]

/-- Going to a position, taking bytes there and going back comes to copying the bytes, if the
cursor is at a place that one can go to. -/
theorem goTo_taken_goTo {c : Cursor} (h : c.data.length < c.position → c.position % c.chunk = 0)
    (position offset : Nat) {n : Nat} (hn : n ≤ c.data.length - position) :
    ((c.goTo position).taken offset n).goTo c.position = c.peeked position offset n := by
  have hmod := Nat.mod_le position c.chunk
  have hback : max (c.position - c.position % c.chunk) (min c.position c.data.length) =
      c.position := by
    have hmod := Nat.mod_le c.position c.chunk
    by_cases hinside : c.position ≤ c.data.length
    · omega
    · have haligned := h (Nat.lt_of_not_le hinside)
      omega
  have hslice : Bytes.slice (max (position - position % c.chunk) (min position c.data.length)) n
      c.data = Bytes.slice position n c.data := by
    cases n with
    | zero => rw [Bytes.slice, Bytes.slice, List.take_zero, List.take_zero]
    | succ n =>
        congr 1
        omega
  rw [goTo_eq, goTo_eq c]
  simp only [taken, peeked, hback, hslice]

end Cursor

namespace Session.Shows

variable {a : Algorithm} {c : Cursor} {s : Session Replicas}

/-- Lending a buffer lends it to the cursor as well. -/
theorem lending (h : s.Shows a c) (lent : Bytes) : Shows a { c with lent } { s with lent } := by
  have hview := h.view
  exact ⟨h.fits, h.replicas, h.copies, rfl, ⟨hview.cursor_le, hview.cursor_le_position,
    hview.next_eq, hview.inside, hview.window, hview.aligned⟩, h.settled⟩

/-- Reading a byte gives the one at the cursor. -/
theorem ends_readByte (h : s.Shows a c) :
    Ends (Stream.readByte Replicas.source) s
      (fun byte t => byte = c.data[c.position]? ∧
        t.Shows a (if byte.isSome then { c with position := c.position + 1 } else c))
      (fun _ _ => False) := by
  have hrest : ∀ t : Session Replicas, t.Shows a c →
      (t.stream.filled ≤ t.stream.cursor → c.data.length ≤ c.position) →
      (t.stream.filled ≤ t.stream.cursor →
        none = c.data[c.position]? ∧
          t.Shows a (if (none : Option UInt8).isSome then { c with position := c.position + 1 } else c)) ∧
      (¬ t.stream.filled ≤ t.stream.cursor →
        some (t.stream.window.getD t.stream.cursor 0) = c.data[c.position]? ∧
          Shows a { c with position := c.position + 1 }
            { t with stream := { t.stream with cursor := t.stream.cursor + 1 } }) := by
    intro t ht hend
    refine ⟨fun hused => ⟨?_, ht⟩, fun hunused => ⟨?_, ht.forward (by omega)⟩⟩
    · exact (List.getElem?_eq_none (hend hused)).symm
    · have hview := ht.view
      have hbefore := hview.cursor_le_position
      have hinside := hview.inside (by omega)
      have hbyte := hview.window t.stream.cursor (by omega)
      have hposition : c.position - t.stream.cursor + t.stream.cursor = c.position := by omega
      rw [hposition, List.getElem?_eq_getElem (by omega : c.position < c.data.length)] at hbyte
      rw [List.getD_eq_getElem?_getD, hbyte, List.getElem?_eq_getElem (by omega), Option.getD_some]
  simp only [Stream.readByte, ends_bind, ends_getStream, ends_ite, ends_pure, ends_modifyStream,
    Stream.ends_fill]
  refine ⟨fun hused => ?_, fun hunused => hrest s h fun hused => absurd hused hunused⟩
  refine (h.ends_refill hused _).mono (fun _ t ht => ?_) (fun _ _ hfalse => hfalse)
  obtain ⟨hshows, hcursor, hend, -⟩ := ht
  exact hrest t hshows fun hused => hend (by omega)

/-- Bytes of the window are taken by copying them. -/
theorem copied (h : s.Shows a c) (offset : Nat) {n : Nat}
    (hn : n ≤ s.stream.filled - s.stream.cursor) :
    Shows a (c.taken offset n)
      { s with
        lent := Bytes.write offset (Bytes.padded s.stream.cursor n s.stream.window) s.lent
        stream := { s.stream with cursor := s.stream.cursor + n } } := by
  rw [h.padded_window hn, h.lent]
  exact (h.forward hn).lending (Bytes.write offset (Bytes.slice c.position n c.data) c.lent)

/-- What a single read comes to: the end of the data, or some bytes taken. -/
inductive Took (a : Algorithm) (c : Cursor) (offset size : Nat) :
    Option Nat → Session Replicas → Prop where
  | ended (t : Session Replicas) :
      c.data.length ≤ c.position → t.Shows a c → Took a c offset size none t
  | some (n : Nat) (t : Session Replicas) :
      0 < n → n ≤ size → n ≤ c.data.length - c.position → t.Shows a (c.taken offset n) →
      Took a c offset size (some n) t

/-- A single read takes bytes from the window, which it may fill, or from the source past it. -/
theorem ends_readOnce (h : s.Shows a c) (offset : Nat) {size : Nat} (hsize : 0 < size) :
    Ends (Stream.readOnce Replicas.source offset size) s (Took a c offset size)
      (fun _ _ => False) := by
  have hcopy : ∀ t : Session Replicas, t.Shows a c → t.stream.cursor < t.stream.filled →
      Took a c offset size (some (min (t.stream.filled - t.stream.cursor) size))
        { t with
          lent := Bytes.write offset (Bytes.padded t.stream.cursor
            (min (t.stream.filled - t.stream.cursor) size) t.stream.window) t.lent
          stream := { t.stream with
            cursor := t.stream.cursor + min (t.stream.filled - t.stream.cursor) size } } := by
    intro t ht hunused
    have hinside := ht.view.inside (by omega)
    exact .some _ _ (by omega) (Nat.min_le_right _ _) (by omega)
      (ht.copied offset (Nat.min_le_left _ _))
  simp only [Stream.readOnce, ends_bind, ends_getStream, ends_ite, ends_pure, Stream.ends_copy,
    Stream.ends_fill, Stream.ends_fetchLent]
  rw [h.available_eq]
  have hle := h.view.cursor_le
  -- A window that is used up is filled again, or passed by if the range takes a whole chunk.
  refine ⟨fun hzero => ⟨fun hwhole => ?past, fun _ => ?through⟩, fun hsome => hcopy s h (by omega)⟩
  case past =>
    have hchunk : s.stream.needsChecksum → c.chunk ≤ size := fun hneeds =>
      h.fits.maxChunk_eq hneeds ▸ hwhole
    refine (h.ends_fetchWith (by omega) (.lent offset) hsize hchunk _).mono (fun count t ht => ?_)
      (fun _ _ hfalse => hfalse)
    cases ht with
    | ended x hend hx => exact .ended _ hend (h.emptied (by omega) hx)
    | part n sums x hpos hn hinside hmod hx =>
        have hempty := h.emptied (by omega) hx
        have hafter := (s.alike_cleared.trans (Stream.Alike.received (.lent offset)
          (Bytes.slice c.position n c.data) sums x s.cleared)).trans
            (u := { (s.cleared.received (.lent offset) (Bytes.slice c.position n c.data) sums
              x).stream with next := s.stream.next + n }) .placed
        refine .some n _ hpos hn (by omega)
          ⟨h.fits.alike hafter, hempty.replicas, hempty.copies, ?_, ?_, fun hpast => ?_⟩
        · show Bytes.write offset (Bytes.slice c.position n c.data) s.lent = _
          rw [h.lent]
          rfl
        · refine ⟨Nat.le_refl 0, Nat.zero_le _, ?_, fun hsome => absurd hsome (Nat.lt_irrefl 0),
            fun i hi => absurd hi (Nat.not_lt_zero i), fun hneeds => ?_⟩
          · show s.stream.next + n = (c.position + n : Nat)
            rw [(h.next_of_used (by omega)).1]
            rfl
          · have hneeds : s.stream.needsChecksum := hafter.needsChecksum.symm.trans hneeds
            obtain hend | hend := hmod hneeds
            · exact .inl hend
            · exact .inr (Nat.le_of_eq hend.symm)
        · have hpast : c.data.length < c.position + n := hpast
          omega
  case through =>
    refine (h.ends_refill (by omega) _).mono (fun _ t ht => ?_) (fun _ _ hfalse => hfalse)
    obtain ⟨hshows, hcursor, hend, -⟩ := ht
    refine ⟨fun hempty => .ended _ (hend hempty) hshows, fun hfilled => ?_⟩
    have hcopied := hcopy t hshows (by omega)
    rw [hcursor, Nat.sub_zero] at hcopied
    rw [hcursor]
    exact hcopied

/-- Reading up to a size takes all the bytes that there are. -/
theorem ends_readUpTo (h : s.Shows a c) {fuel offset size : Nat} (hsize : 0 < size)
    (hfuel : size ≤ fuel) (hoffset : offset ≤ c.lent.length) :
    Ends (Stream.readUpTo Replicas.source fuel offset size) s
      (fun count t => count = c.left size ∧ t.Shows a (c.taken offset (c.left size)))
      (fun _ _ => False) := by
  -- The fuel covers what is left to read, so it isn't spent before the range is full.
  refine Stream.ends_readUpTo_of_turns
    (I := fun fuel count t => t.Shows a (c.taken offset count) ∧ count < size ∧
      size ≤ count + fuel ∧ count ≤ c.data.length - c.position)
    (fun count t ht => absurd ht.2.1 (Nat.not_lt_of_le ht.2.2.1)) (fun fuel count t ht => ?_)
    ⟨(Cursor.taken_zero hoffset).symm ▸ h, hsize, by omega, Nat.zero_le _⟩
  obtain ⟨ht, hless, hfuel, hinside⟩ := ht
  refine (ht.ends_readOnce (offset + count) (Nat.sub_pos_of_lt hless)).mono (fun more u hu => ?_)
    (fun _ _ hfalse => hfalse)
  cases hu with
  | ended _ hend hshows =>
      have hend : c.data.length ≤ c.position + count := hend
      have hleft : c.left size = count := by
        rw [Cursor.left]
        omega
      rw [hleft]
      exact ⟨fun _ => ⟨rfl, hshows⟩, fun n hn => (Option.some_ne_none n hn.symm).elim⟩
  | some n _ hpos hle hrest hshows =>
      have hrest : n ≤ c.data.length - (c.position + count) := hrest
      rw [Cursor.taken_taken hinside] at hshows
      refine ⟨fun hnone => absurd hnone (Option.some_ne_none n), fun m hm => ?_⟩
      obtain rfl := Option.some.inj hm
      refine ⟨fun hfull => ?_, fun hless => ⟨hshows, hless, by omega, by omega⟩⟩
      have hleft : c.left size = count + n := by
        rw [Cursor.left]
        omega
      rw [hleft]
      exact ⟨rfl, hshows⟩

/-- A read outside of the lent buffer is refused. -/
theorem ends_read_outside (h : s.Shows a c) {offset size : Nat}
    (hrange : c.lent.length < offset ∨ c.lent.length - offset < size) :
    Ends ((Stream.seekable Replicas.source).read offset size) s (fun _ _ => False)
      (fun e t => e = .outsideBuffer ∧ t = s) := by
  simp only [Stream.seekable, Stream.read, ends_bind, ends_get, ends_ite, ends_throw, ends_pure]
  rw [h.lent]
  exact ⟨fun _ => ⟨trivial, trivial⟩, fun hinside => absurd hrange hinside⟩

/-- A read of a range in the lent buffer takes what there is of it, or says that the data has
ended. -/
theorem ends_read (h : s.Shows a c) {offset size : Nat}
    (hrange : ¬ (c.lent.length < offset ∨ c.lent.length - offset < size)) :
    Ends ((Stream.seekable Replicas.source).read offset size) s
      (fun count t => count = (if c.left size = 0 ∧ size ≠ 0 then -1 else (c.left size : Int)) ∧
        t.Shows a (c.taken offset (c.left size)))
      (fun _ _ => False) := by
  simp only [Stream.seekable, Stream.read, ends_bind, ends_get, ends_ite, ends_throw, ends_pure]
  rw [h.lent]
  refine ⟨fun houtside => absurd houtside hrange, fun _ => ⟨fun hzero => ?_, fun hsome => ?_⟩⟩
  · have hleft : c.left size = 0 := by
      rw [Cursor.left]
      omega
    rw [hleft, Cursor.taken_zero (by omega), if_neg (fun hboth => hboth.2 hzero)]
    exact ⟨rfl, h⟩
  · refine (h.ends_readUpTo (Nat.pos_of_ne_zero hsome) (Nat.le_refl size) (by omega)).mono
      (fun count t ht => ?_) (fun _ _ hfalse => hfalse)
    obtain ⟨rfl, ht⟩ := ht
    by_cases hleft : c.left size = 0
    · rw [if_pos hleft, if_pos ⟨hleft, hsome⟩]
      exact ⟨rfl, ht⟩
    · rw [if_neg hleft, if_neg (fun hboth => hleft hboth.1)]
      exact ⟨rfl, ht⟩

/-! ## Complete reads and positioned ones -/

/-- A positioned read of a range in the lent buffer takes what there is of it at the position, and
goes back. -/
theorem ends_readAt (h : s.Shows a c) (position : Nat) {offset size : Nat}
    (hrange : ¬ (c.lent.length < offset ∨ c.lent.length - offset < size)) :
    Ends ((Stream.seekable Replicas.source).readAt position offset size) s
      (fun count t =>
        count = (if min size (c.data.length - position) = 0 ∧ size ≠ 0 then -1
          else ((min size (c.data.length - position) : Nat) : Int)) ∧
        t.Shows a (c.peeked position offset size))
      (fun _ _ => False) := by
  simp only [Seekable.readAt, ends_bind, ends_get, ends_ite, ends_throw, ends_pure, ends_tryCatch]
  have hbuffer : (Stream.seekable Replicas.source).buffer s = c.lent := h.lent
  have hposition : (Stream.seekable Replicas.source).position s = c.position := h.position_eq
  rw [hbuffer, hposition]
  refine ⟨fun houtside => absurd houtside hrange, fun _ => ⟨fun hzero => ?_, fun hsome => ?_⟩⟩
  · subst hzero
    rw [Nat.zero_min, Cursor.peeked_zero (by omega), if_neg (fun hboth => hboth.2 rfl)]
    exact ⟨rfl, h⟩
  refine (h.ends_seek position).mono (fun _ t ht => ?_)
    (fun _ _ hfalse => hfalse.elim)
  have hlent : (c.goTo position).lent = c.lent := by rw [Cursor.goTo_eq]
  have hleft : (c.goTo position).left size = min size (c.data.length - position) := by
    have hmod := Nat.mod_le position c.chunk
    rw [Cursor.goTo_eq]
    show min size (c.data.length - max _ _) = _
    omega
  refine (ht.ends_read (by rw [hlent]; exact hrange)).mono (fun count u hu => ?_)
    (fun _ _ hfalse => hfalse.elim)
  obtain ⟨rfl, hu⟩ := hu
  -- The stream goes back to a place that it was at, so it gets there.
  refine (hu.ends_seek c.position).mono (fun _ v hv => ?_)
    (fun _ _ hfalse => hfalse)
  rw [hleft] at hv ⊢
  rw [Cursor.goTo_taken_goTo h.settled _ _ (by omega), Cursor.peeked_min] at hv
  exact ⟨rfl, hv⟩

end Session.Shows

/-- A part that is refused at once leaves the range as it is. -/
theorem Seekable.ends_readParts_refused {τ : Type}
    {part : Nat → Nat → Nat → EStateM StreamError τ Int} {offset size : Nat} {s : τ}
    {E : StreamError → τ → Prop} (hsize : size ≠ 0)
    (hpart : Ends (part 0 offset size) s (fun _ _ => False) E) :
    Ends (Seekable.readParts part size 0 offset size) s (fun _ _ => False) E := by
  obtain ⟨n, rfl⟩ := Nat.exists_eq_succ_of_ne_zero hsize
  simp only [Seekable.readParts, ends_ite, ends_bind, ends_pure, ends_throw]
  refine ⟨fun hzero => hsize hzero, fun _ => hpart.mono (fun _ _ hfalse => hfalse.elim) ?_⟩
  exact fun _ _ he => he

/-- Parts that each take what there is fill the range, or take all that there is and then meet the
end. `I done` says how things stand after so many bytes. -/
theorem Seekable.ends_readParts {τ : Type} {part : Nat → Nat → Nat → EStateM StreamError τ Int}
    {I : Nat → τ → Prop} {offset size : Nat} (total : Nat)
    (hpart : ∀ done s, I done s → done ≤ min size total → done < size →
      Ends (part done (offset + done) (size - done)) s
        (fun count t =>
          count = (if total ≤ done then -1 else ((min size total - done : Nat) : Int)) ∧
            I (max done (min size total)) t)
        (fun _ _ => False))
    {fuel done : Nat} {s : τ} (h : I done s) (hdone : done ≤ min size total)
    (hfuel : size - done ≤ fuel) :
    Ends (Seekable.readParts part fuel done (offset + done) (size - done)) s
      (fun _ t => size ≤ total ∧ I size t)
      (fun e t => e = .prematureEnd ∧ total < size ∧ I total t) := by
  induction fuel generalizing done s with
  | zero =>
      obtain rfl : done = size := by omega
      exact ⟨by omega, h⟩
  | succ fuel ih =>
      simp only [Seekable.readParts, ends_ite, ends_bind, ends_pure, ends_throw]
      refine ⟨fun hfull => ?_, fun hmore => ?_⟩
      · obtain rfl : done = size := by omega
        exact ⟨by omega, h⟩
      refine (hpart done s h hdone (by omega)).mono (fun count t ht => ?_) (fun _ _ hfalse => hfalse.elim)
      obtain ⟨rfl, ht⟩ := ht
      by_cases hend : total ≤ done
      · obtain rfl : done = total := by omega
        have hsame : max done (min size done) = done := by omega
        rw [hsame] at ht
        rw [if_pos hend]
        exact ⟨fun _ => ⟨trivial, by omega, ht⟩, fun hpos => absurd (by decide) hpos⟩
      · have hnext : max done (min size total) = min size total := by omega
        have hcount : ((min size total - done : Nat) : Int).toNat = min size total - done :=
          Int.toNat_natCast _
        have hoffset : offset + done + (min size total - done) = offset + min size total := by omega
        have hsize : size - done - (min size total - done) = size - min size total := by omega
        have hreached : done + (min size total - done) = min size total := by omega
        rw [hnext] at ht
        rw [if_neg hend, hcount, hoffset, hsize, hreached]
        exact ⟨fun hzero => absurd hzero (by omega), fun _ => ih ht (by omega) (by omega)⟩

namespace Session.Shows

variable {a : Algorithm} {c : Cursor} {s : Session Replicas} {offset size : Nat}

/-- A complete read takes the whole range, or all that there is of it and then meets the end. -/
theorem ends_readFully (h : s.Shows a c)
    (hrange : ¬ (c.lent.length < offset ∨ c.lent.length - offset < size)) :
    Ends ((Stream.seekable Replicas.source).readFully offset size) s
      (fun _ t => size ≤ c.data.length - c.position ∧ t.Shows a (c.taken offset (c.left size)))
      (fun e t => e = .prematureEnd ∧ c.data.length - c.position < size ∧
        t.Shows a (c.taken offset (c.left size))) := by
  have hstart : s.Shows a (c.taken offset 0) := by
    rw [Cursor.taken_zero (by omega)]
    exact h
  refine (Seekable.ends_readParts (c.data.length - c.position)
    (I := fun done (t : Session Replicas) => t.Shows a (c.taken offset done))
    (fun done t ht hle hdone => ?_) hstart (Nat.zero_le _) (Nat.le_refl size)).mono ?full ?short
  case full =>
    rintro - t ⟨hfull, ht⟩
    have hleft : c.left size = size := Nat.min_eq_left hfull
    rw [hleft]
    exact ⟨hfull, ht⟩
  case short =>
    rintro e t ⟨rfl, hshort, ht⟩
    have hleft : c.left size = c.data.length - c.position := Nat.min_eq_right (Nat.le_of_lt hshort)
    rw [hleft]
    exact ⟨rfl, hshort, ht⟩
  have hlength : (c.taken offset done).lent.length = max (offset + done) c.lent.length := by
    show (Bytes.write _ _ _).length = _
    rw [Bytes.length_write, Bytes.length_slice, Nat.min_eq_left (by omega)]
  have hleft : (c.taken offset done).left (size - done) =
      min size (c.data.length - c.position) - done := by
    show min (size - done) (c.data.length - (c.position + done)) = _
    omega
  refine (ht.ends_read (by omega)).mono (fun count u hu => ?_) (fun _ _ hfalse => hfalse)
  obtain ⟨rfl, hu⟩ := hu
  have hreached : done + (min size (c.data.length - c.position) - done) =
      max done (min size (c.data.length - c.position)) := by omega
  rw [hleft] at hu ⊢
  rw [Cursor.taken_taken (by omega), hreached] at hu
  refine ⟨?_, hu⟩
  by_cases hend : c.data.length - c.position ≤ done
  · rw [if_pos hend, if_pos (by omega)]
  · rw [if_neg hend, if_neg (by omega)]

/-- A complete positioned read copies the whole range, or all that there is of it. -/
theorem ends_readFullyAt (h : s.Shows a c) {position : Nat}
    (hrange : ¬ (c.lent.length < offset ∨ c.lent.length - offset < size)) :
    Ends ((Stream.seekable Replicas.source).readFullyAt position offset size) s
      (fun _ t => size ≤ c.data.length - position ∧ t.Shows a (c.peeked position offset size))
      (fun e t => e = .prematureEnd ∧ c.data.length - position < size ∧
        t.Shows a (c.peeked position offset size)) := by
  have hstart : s.Shows a (c.peeked position offset 0) := by
    rw [Cursor.peeked_zero (by omega)]
    exact h
  refine (Seekable.ends_readParts (c.data.length - position)
    (I := fun done (t : Session Replicas) => t.Shows a (c.peeked position offset done))
    (fun done t ht hle hdone => ?_) hstart (Nat.zero_le _) (Nat.le_refl size)).mono
    (fun _ _ ht => ht) ?short
  case short =>
    rintro e t ⟨rfl, hshort, ht⟩
    rw [← Cursor.peeked_min, Nat.min_eq_right (Nat.le_of_lt hshort)]
    exact ⟨rfl, hshort, ht⟩
  have hlength : (c.peeked position offset done).lent.length = max (offset + done) c.lent.length := by
    show (Bytes.write _ _ _).length = _
    rw [Bytes.length_write, Bytes.length_slice, Nat.min_eq_left (by omega)]
  have hleft : min (size - done) (c.data.length - (position + done)) =
      min size (c.data.length - position) - done := by omega
  refine (ht.ends_readAt (position + done) (by omega)).mono (fun count u hu => ?_)
    (fun _ _ hfalse => hfalse)
  obtain ⟨rfl, hu⟩ := hu
  have hreached : done + (min size (c.data.length - position) - done) =
      max done (min size (c.data.length - position)) := by omega
  have hdata : (c.peeked position offset done).data = c.data := rfl
  rw [← Cursor.peeked_min] at hu
  rw [hdata, hleft] at hu ⊢
  rw [Cursor.peeked_peeked (by omega), hreached] at hu
  refine ⟨?_, hu⟩
  by_cases hend : c.data.length - position ≤ done
  · rw [if_pos hend, if_pos (by omega)]
  · rw [if_neg hend, if_neg (by omega)]

end Session.Shows

end ChunkGuard
