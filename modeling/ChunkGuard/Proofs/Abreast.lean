import ChunkGuard.Proofs.Erasure
import ChunkGuard.Proofs.Restoring

/-!
# Two ways to read a range in full

A range at a position can be read by going there once and reading on, or by positioned reads that go
back after every part. Where seeks only move a stream, and its reads are answered in a row, both make
the same reads, get the same bytes and end alike (`Seekable.readFullyAt_agrees`). They differ in where
they leave the stream.
-/

namespace ChunkGuard

/-- Begun in what a state is carried to, the other computation leaves what the state left is carried
to. -/
theorem Carried.eq_leaving {ε σ τ α : Type} {f : σ → τ} {m : EStateM ε σ α} {m' : EStateM ε τ α}
    (h : Carried f m m') {s t : σ} {outcome : Except ε α} (hm : m s = leaving t outcome) :
    m' (f s) = leaving (f t) outcome := by
  cases outcome with
  | ok a => exact (h s).ok hm
  | error e => exact (h s).error hm

namespace Seekable

variable {τ : Type} {s : Seekable τ} {position : Int} {offset size : Nat}

/-! ## Answers in a row -/

/-- The answer to a read: the bytes that it writes from the start of its range on, and its outcome. -/
structure Answer where
  bytes : Bytes
  outcome : Except StreamError Int

/-- How many bytes a read obtained. -/
def obtained : Except StreamError Int → Nat
  | .ok count => count.toNat
  | .error _ => 0

/-- A read of a range got an answer. The position moved on by what it obtained. -/
structure Answered (s : Seekable τ) (number : τ → Nat) (answer : Answer) (offset size : Nat)
    (t u : τ) : Prop where
  read_eq : s.read offset size t = leaving u answer.outcome
  obtained_le : obtained answer.outcome ≤ size
  bytes_le : answer.bytes.length ≤ size
  buffer_eq : s.buffer u = Bytes.write offset answer.bytes (s.buffer t)
  position_eq : s.position u = s.position t + obtained answer.outcome
  number_eq : number u = number t + 1

/-- Every seek succeeds and does nothing but move the stream. The answer to a read may depend on how
many reads were made before, on the position and on the size asked for. -/
structure Answering (s : Seekable τ) (number : τ → Nat) (answer : Nat → Int → Nat → Answer) :
    Prop where
  seek : ∀ position t, ∃ u, s.seek position t = .ok () u ∧ s.position u = position ∧
    s.buffer u = s.buffer t ∧ number u = number t
  read : ∀ offset size t, 0 < size → offset + size ≤ (s.buffer t).length →
    ∃ u, s.Answered number (answer (number t) (s.position t) size) offset size t u

/-- The answer stays in the buffer. -/
theorem Answered.length_buffer {number : τ → Nat} {answer : Answer} {t u : τ}
    (h : s.Answered number answer offset size t u) (hroom : offset + size ≤ (s.buffer t).length) :
    (s.buffer u).length = (s.buffer t).length := by
  have hbytes := h.bytes_le
  rw [h.buffer_eq, Bytes.length_write]
  omega

/-! ## Reading a range part by part -/

/-- The reads of successive parts of a range, what comes of reading the range in full by them, and the
number of bytes obtained. -/
inductive Parts : (offset size : Nat) → List Exchange → Except StreamError Unit → Nat → Prop where
  | full (offset : Nat) : Parts offset 0 [] (.ok ()) 0
  | failed {offset size : Nat} (e : StreamError) :
      0 < size → Parts offset size [.read offset size (.error e)] (.error e) 0
  | ended {offset size : Nat} (code : Int) :
      0 < size → code ≤ 0 →
      Parts offset size [.read offset size (.ok code)] (.error .prematureEnd) 0
  | part {offset size count more : Nat} {reads : List Exchange} {outcome : Except StreamError Unit} :
      0 < count → count ≤ size → Parts (offset + count) (size - count) reads outcome more →
      Parts offset size (.read offset size (.ok count) :: reads) outcome (count + more)

/-- Each part but the last one obtains something, so there are no more parts than bytes. -/
theorem Parts.length_le {reads : List Exchange} {outcome : Except StreamError Unit} {count : Nat}
    (h : Parts offset size reads outcome count) : reads.length ≤ size := by
  induction h with
  | full offset => exact Nat.le_refl 0
  | failed e hsize => exact hsize
  | ended code hsize => exact hsize
  | part hcount hle _ ih =>
      rw [List.length_cons]
      omega

/-- No more is read than was asked for. -/
theorem Parts.count_le {reads : List Exchange} {outcome : Except StreamError Unit} {count : Nat}
    (h : Parts offset size reads outcome count) : count ≤ size := by
  induction h with
  | full offset => exact Nat.le_refl 0
  | failed e => exact Nat.zero_le _
  | ended code => exact Nat.zero_le _
  | part hcount hle _ ih => omega

/-- The range is full exactly if all of its bytes were obtained. -/
theorem Parts.ok_iff {reads : List Exchange} {outcome : Except StreamError Unit} {count : Nat}
    (h : Parts offset size reads outcome count) : outcome = .ok () ↔ count = size := by
  induction h with
  | full offset => simp
  | failed e hsize => simp [Nat.ne_of_lt hsize]
  | ended code hsize => simp [Nat.ne_of_lt hsize]
  | part hcount hle hparts ih =>
      rw [ih]
      omega

section Rules

variable {part : Nat → Nat → Nat → EStateM StreamError τ Int} {fuel done : Nat} {t u : τ}

/-- Nothing left to read is nothing to do. -/
theorem readParts_zero : readParts part fuel done offset 0 t = .ok () t := by
  cases fuel <;> rfl

/-- A part that fails fails the read. -/
theorem readParts_of_error {e : StreamError} (hsize : 0 < size)
    (h : part done offset size t = .error e u) :
    readParts part (fuel + 1) done offset size t = .error e u := by
  simp only [readParts, Nat.ne_of_gt hsize, if_false, bind, EStateM.bind, h]

/-- A part of no bytes ends the read too early. -/
theorem readParts_of_ended {code : Int} (hsize : 0 < size) (hcode : code ≤ 0)
    (h : part done offset size t = .ok code u) :
    readParts part (fuel + 1) done offset size t = .error .prematureEnd u := by
  simp only [readParts, Nat.ne_of_gt hsize, if_false, bind, EStateM.bind, h, hcode, if_true]
  rfl

/-- After a part the rest is read behind it. -/
theorem readParts_of_part {count : Nat} (hsize : 0 < size) (hcount : 0 < count)
    (h : part done offset size t = .ok count u) :
    readParts part (fuel + 1) done offset size t =
      readParts part fuel (done + count) (offset + count) (size - count) u := by
  have hpos : ¬ (count : Int) ≤ 0 := by omega
  simp only [readParts, Nat.ne_of_gt hsize, if_false, bind, EStateM.bind, h, hpos,
    Int.toNat_natCast]

end Rules

/-! ## Noted streams -/

/-- A noted stream goes where its stream goes. -/
theorem carried_noted_seek (s : Seekable τ) (position : Int) :
    Carried Noted.state (s.noted.seek position) (s.seek position) := by
  intro t
  obtain ⟨u, outcome, hseek⟩ := exists_leaving (s.seek position t.state)
  refine .of_leaving (noted_seek hseek) ?_ ?_
  · rintro a rfl
    exact hseek
  · rintro e rfl
    exact hseek

/-- A noted stream reads what its stream reads. -/
theorem carried_noted_read (s : Seekable τ) (offset size : Nat) :
    Carried Noted.state (s.noted.read offset size) (s.read offset size) := by
  intro t
  obtain ⟨u, outcome, hread⟩ := exists_leaving (s.read offset size t.state)
  refine .of_leaving (noted_read hread) ?_ ?_
  · rintro a rfl
    exact hread
  · rintro e rfl
    exact hread

theorem carried_noted_readAt (s : Seekable τ) (position : Int) (offset size : Nat) :
    Carried Noted.state (s.noted.readAt position offset size) (s.readAt position offset size) := by
  rw [carried_iff_coupled]
  refine coupled_readAt ?_ ?_ (fun position => carried_iff_coupled.mp (s.carried_noted_seek position))
    (fun offset size => carried_iff_coupled.mp (s.carried_noted_read offset size)) position offset size
  all_goals
    rintro t _ rfl
    rfl

theorem carried_noted_readFully (s : Seekable τ) (offset size : Nat) :
    Carried Noted.state (s.noted.readFully offset size) (s.readFully offset size) :=
  carried_iff_coupled.mpr (coupled_readParts
    (fun _ offset size => carried_iff_coupled.mp (s.carried_noted_read offset size)) _ _ _ _)

theorem carried_noted_readFullyAt (s : Seekable τ) (position : Int) (offset size : Nat) :
    Carried Noted.state (s.noted.readFullyAt position offset size)
      (s.readFullyAt position offset size) :=
  carried_iff_coupled.mpr (coupled_readParts (fun done offset size =>
    carried_iff_coupled.mp (s.carried_noted_readAt (position + done) offset size)) _ _ _ _)

/-! ## Side by side -/

theorem Noted.reads_append (t : Noted τ) (exchanges : List Exchange) (u : τ) :
    (⟨u, t.exchanges ++ exchanges⟩ : Noted τ).reads =
      t.reads ++ exchanges.filter Exchange.isRead :=
  List.filter_append _ _

/-- One stream goes back to where it was after each part, the other one reads on. But for their
positions they are alike. -/
structure Abreast (s : Seekable τ) (number : τ → Nat) (saved next : Int) (t u : Noted τ) : Prop where
  number_eq : number t.state = number u.state
  buffer_eq : s.buffer t.state = s.buffer u.state
  saved : s.position t.state = saved
  next : s.position u.state = next

namespace Abreast

variable {number : τ → Nat} {answer : Nat → Int → Nat → Answer} {saved : Int} {done fuel : Nat}
  {t u : Noted τ}

/-- A positioned read of the first stream does what a read of the second one does. -/
theorem step (h : Abreast s number saved (position + done) t u) (hs : s.Answering number answer)
    (hsize : 0 < size) (hroom : offset + size ≤ (s.buffer u.state).length) :
    ∃ outcome t' u', obtained outcome ≤ size ∧
      s.noted.readAt (position + done) offset size t = leaving t' outcome ∧
      s.noted.read offset size u = leaving u' outcome ∧
      t'.reads = t.reads ++ [.read offset size outcome] ∧
      u'.reads = u.reads ++ [.read offset size outcome] ∧
      (s.buffer u'.state).length = (s.buffer u.state).length ∧
      Abreast s number saved (position + (done + obtained outcome : Nat)) t' u' := by
  obtain ⟨there, hseek, hthere, hbuffer, hnumber⟩ := hs.seek (position + done) t.state
  have hsame : answer (number there) (s.position there) size =
      answer (number u.state) (s.position u.state) size := by
    rw [hnumber, hthere, h.number_eq, h.next]
  have hroom' : offset + size ≤ (s.buffer there).length := by
    rw [hbuffer, h.buffer_eq]
    exact hroom
  obtain ⟨v, hv⟩ := hs.read offset size there hsize hroom'
  obtain ⟨w, hw⟩ := hs.read offset size u.state hsize hroom
  rw [hsame] at hv
  generalize answer (number u.state) (s.position u.state) size = a at hv hw
  obtain ⟨x, hback, hx, hbuffer', hnumber'⟩ := hs.seek (s.position t.state) v
  have hvisit : s.Visit (position + done) offset size t.state _ a.outcome v :=
    .arrived hseek hv.read_eq
  have hback : s.seek (s.position t.state) v = leaving x (.ok ()) := hback
  have hread := noted_readAt_eq (h.buffer_eq ▸ hroom) hsize hvisit hback
  refine ⟨a.outcome, _, _, hv.obtained_le, hread, noted_read hw.read_eq, ?_, ?_, ?_, ?_, ?_, ?_, ?_⟩
  · rw [List.append_assoc, Noted.reads_append]
    rfl
  · exact Noted.reads_append u _ w
  · exact hw.length_buffer hroom
  · show number x = number w
    rw [hnumber', hv.number_eq, hw.number_eq, hnumber, h.number_eq]
  · show s.buffer x = s.buffer w
    rw [hbuffer', hv.buffer_eq, hw.buffer_eq, hbuffer, h.buffer_eq]
  · exact hx.trans h.saved
  · show s.position w = _
    rw [hw.position_eq, h.next]
    omega

/-- Reads of all parts of a range keep them abreast. -/
theorem run (h : Abreast s number saved (position + done) t u) (hs : s.Answering number answer)
    (hfuel : size ≤ fuel) (hroom : offset + size ≤ (s.buffer u.state).length) :
    ∃ reads outcome count t' u', Parts offset size reads outcome count ∧
      readParts (fun done => s.noted.readAt (position + done)) fuel done offset size t =
        leaving t' outcome ∧
      readParts (fun _ => s.noted.read) fuel done offset size u = leaving u' outcome ∧
      t'.reads = t.reads ++ reads ∧ u'.reads = u.reads ++ reads ∧
      Abreast s number saved (position + (done + count : Nat)) t' u' := by
  induction fuel generalizing done offset size t u with
  | zero =>
      obtain rfl : size = 0 := by omega
      exact ⟨[], .ok (), 0, t, u, .full offset, readParts_zero, readParts_zero,
        (List.append_nil _).symm, (List.append_nil _).symm, h⟩
  | succ fuel ih =>
      obtain rfl | hsize := Nat.eq_zero_or_pos size
      · exact ⟨[], .ok (), 0, t, u, .full offset, readParts_zero, readParts_zero,
          (List.append_nil _).symm, (List.append_nil _).symm, h⟩
      obtain ⟨outcome, t', u', hle, ht, hu, htreads, hureads, hlength, h'⟩ := h.step hs hsize hroom
      cases outcome with
      | error e =>
          exact ⟨_, .error e, 0, t', u', .failed e hsize, readParts_of_error hsize ht,
            readParts_of_error hsize hu, htreads, hureads, h'⟩
      | ok count =>
          by_cases hpos : 0 < count
          · -- The rest of the range is read from where this part ends.
            obtain ⟨n, rfl⟩ := Int.eq_ofNat_of_zero_le (Int.le_of_lt hpos)
            have hn : 0 < n := Int.ofNat_lt.mp hpos
            have hle : n ≤ size := hle
            have h' : Abreast s number saved (position + (done + n : Nat)) t' u' := h'
            have hfuel' : size - n ≤ fuel := by omega
            have hroom' : offset + n + (size - n) ≤ (s.buffer u'.state).length := by omega
            obtain ⟨reads, outcome, more, t'', u'', hparts, ht', hu', htreads', hureads', h''⟩ :=
              ih h' hfuel' hroom'
            refine ⟨_, outcome, n + more, t'', u'', .part hn hle hparts, ?_, ?_, ?_, ?_, ?_⟩
            · exact (readParts_of_part hsize hn ht).trans ht'
            · exact (readParts_of_part hsize hn hu).trans hu'
            · rw [htreads', htreads, List.append_assoc]
              rfl
            · rw [hureads', hureads, List.append_assoc]
              rfl
            · rw [← Nat.add_assoc]
              exact h''
          · have hcode : count ≤ 0 := Int.not_lt.mp hpos
            have hnone : obtained (.ok count) = 0 := Int.toNat_of_nonpos hcode
            rw [hnone] at h'
            exact ⟨_, .error .prematureEnd, 0, t', u', .ended count hsize hcode,
              readParts_of_ended hsize hcode ht, readParts_of_ended hsize hcode hu, htreads, hureads,
              h'⟩

end Abreast

/-- Reading a range at a position in full, and going to the position and reading the range in full, make
the same reads of successive parts of the range, at most one for each byte, and write the same bytes.
Both end alike: with the range full, at the first read that obtains nothing, or with the error of a
read. After the first the stream is where it was before, and after the second it is past what was
obtained. -/
theorem readFullyAt_agrees {number : τ → Nat} {answer : Nat → Int → Nat → Answer}
    (hs : s.Answering number answer) (t : Noted τ) (position : Int)
    (hroom : offset + size ≤ (s.buffer t.state).length) :
    StreamError.prematureEnd.report.code = .endOfStream ∧
    ∃ reads outcome count u v, Parts offset size reads outcome count ∧
      reads.length ≤ size ∧ count ≤ size ∧ (outcome = .ok () ↔ count = size) ∧
      s.readFullyAt position offset size t.state = leaving u.state outcome ∧
      (do s.seek position; s.readFully offset size) t.state = leaving v.state outcome ∧
      s.noted.readFullyAt position offset size t = leaving u outcome ∧
      (do s.noted.seek position; s.noted.readFully offset size) t = leaving v outcome ∧
      u.reads = t.reads ++ reads ∧ v.reads = t.reads ++ reads ∧
      s.buffer u.state = s.buffer v.state ∧ number u.state = number v.state ∧
      s.position u.state = s.position t.state ∧ s.position v.state = position + count := by
  obtain ⟨there, hseek, hthere, hbuffer, hnumber⟩ := hs.seek position t.state
  have hseek : s.seek position t.state = leaving there (.ok ()) := hseek
  have hseek := noted_seek hseek
  have habreast : Abreast s number (s.position t.state) (position + (0 : Nat)) t
      ⟨there, t.exchanges ++ [.seek position (.ok ())]⟩ :=
    ⟨hnumber.symm, hbuffer.symm, rfl, hthere.trans (Int.add_zero _).symm⟩
  obtain ⟨reads, outcome, count, u, v, hparts, hu, hv, hureads, hvreads, h⟩ :=
    habreast.run hs (Nat.le_refl size) (by rw [hbuffer]; exact hroom)
  rw [Noted.reads_append] at hvreads
  rw [Nat.zero_add] at h
  have hv : (do s.noted.seek position; s.noted.readFully offset size) t = leaving v outcome := by
    simp only [bind, EStateM.bind, hseek, leaving]
    exact hv
  have hon := (s.carried_noted_seek position).bind fun _ => s.carried_noted_readFully offset size
  refine ⟨rfl, reads, outcome, count, u, v, hparts, hparts.length_le, hparts.count_le, hparts.ok_iff,
    (s.carried_noted_readFullyAt position offset size).eq_leaving hu, hon.eq_leaving hv, hu, hv, hureads,
    ?_, h.buffer_eq, h.number_eq, h.saved, h.next⟩
  rw [hvreads]
  exact List.append_assoc _ _ _

/-! ## Reads answered by their number -/

/-- The state of a stream that answers its reads by their number. -/
structure Numbered where
  position : Int := 0
  number : Nat := 0
  buffer : Bytes

/-- The stream that gives its reads these numbers of bytes, less where fewer are asked for, and an end
of the data when there are no more. The bytes are the position, cut off to a byte. -/
def numbered (counts : List Nat) : Seekable Numbered where
  seek position t := .ok () { t with position }
  position := Numbered.position
  read offset size t :=
    let count := min size (counts.getD t.number 0)
    let bytes := List.replicate count (UInt8.ofNat t.position.toNat)
    .ok count
      ⟨t.position + count, t.number + 1, Bytes.write offset bytes t.buffer⟩
  buffer := Numbered.buffer

theorem answering_numbered (counts : List Nat) :
    (numbered counts).Answering Numbered.number fun number position size =>
      ⟨List.replicate (min size (counts.getD number 0)) (UInt8.ofNat position.toNat),
        .ok (min size (counts.getD number 0) : Nat)⟩ where
  seek position t := ⟨{ t with position }, rfl, rfl, rfl, rfl⟩
  read offset size t hsize hroom := by
    refine ⟨_, rfl, Nat.min_le_left _ _, ?_, rfl, rfl, rfl⟩
    rw [List.length_replicate]
    exact Nat.min_le_left _ _

/-- The second of three parts is the rest of the range, and the third one isn't read. -/
theorem readFullyAt_agrees_in_two_parts :
    let t : Noted Numbered := ⟨{ position := 7, buffer := Bytes.zeros 4 }, []⟩
    1 + 3 ≤ ((numbered [2, 5, 1]).buffer t.state).length ∧
    (numbered [2, 5, 1]).Answering Numbered.number (fun number position size =>
      ⟨List.replicate (min size ([2, 5, 1].getD number 0)) (UInt8.ofNat position.toNat),
        .ok (min size ([2, 5, 1].getD number 0) : Nat)⟩) ∧
    ∃ u v, (numbered [2, 5, 1]).readFullyAt 20 1 3 t.state = .ok () u ∧
      (do (numbered [2, 5, 1]).seek 20; (numbered [2, 5, 1]).readFully 1 3) t.state = .ok () v ∧
      u.buffer = [0, 20, 20, 22] ∧ v.buffer = [0, 20, 20, 22] ∧ u.position = 7 ∧ v.position = 23 := by
  intro t
  have hroom : 1 + 3 ≤ ((numbered [2, 5, 1]).buffer t.state).length := by decide
  have hanswering := answering_numbered [2, 5, 1]
  refine ⟨hroom, hanswering, ?_⟩
  have hruns : Ends ((numbered [2, 5, 1]).readFullyAt 20 1 3) t.state
      (fun _ u => u.buffer = [0, 20, 20, 22]) (fun _ _ => False) := by decide
  obtain ⟨-, reads, outcome, count, u, v, -, -, -, hok, hu, hv, -, -, -, -, hbuffer, -, hsaved,
    hposition⟩ := readFullyAt_agrees hanswering t 20 hroom
  cases outcome with
  | error e => exact (hruns.error hu).elim
  | ok done =>
      have hwritten : u.state.buffer = [0, 20, 20, 22] := hruns.ok hu
      obtain rfl : count = 3 := hok.mp rfl
      exact ⟨u.state, v.state, hu, hv, hwritten, hbuffer.symm.trans hwritten, hsaved, hposition⟩

end Seekable

end ChunkGuard
