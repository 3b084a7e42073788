import ChunkGuard.Proofs.Balance
import ChunkGuard.Proofs.Verdict
import ChunkGuard.Source.Script

/-!
# A failover inside of a chunk

For every position inside of a chunk there is a source that fails over there and leaves the cursor
behind the data in the window (`Source.cracked`). It hands out single bytes up to that position, a
damaged one at it, and the end of the data once another copy was looked for. The fetch at the
position is interrupted by one of the bytes before it, whose cursor stays when the fetch goes on and
finds the end.
-/

namespace ChunkGuard

open Session

/-- A zero with its stored checksum, as far as a request leaves room for them. -/
def Reply.zero (sum : UInt32) (request : Request) : Reply :=
  .chunk (List.take request.size [0]) ((Stored.store sum).take (request.capacity.getD 0))

/-- Zeros up to a position, and at the position a damaged one until another copy is looked for. The
other copy ends there. -/
def Source.cracked (a : Algorithm) (align : Int → Int) (crack : Int) : Source Bool where
  read request mended :=
    if request.position < crack then .ok (.zero (a.sum [0]) request) mended
    else if mended then .ok (.ended 1) mended
    else .ok (.zero (if a.sum [0] = 0 then 1 else 0) request) mended
  start _ := align
  switch _ _ := ((true, []), true)

namespace Source

variable {a : Algorithm} {align : Int → Int} {crack : Int}

theorem bounded_cracked : (cracked a align crack).Bounded := by
  intro request before data sums after h
  simp only [cracked] at h
  split at h
  · cases h
    exact ⟨List.length_take_le _ _, List.length_take_le _ _⟩
  · split at h
    · cases h
    · cases h
      exact ⟨List.length_take_le _ _, List.length_take_le _ _⟩

theorem aligning_cracked (halign : ∀ p, 0 ≤ p → 0 ≤ align p ∧ align p ≤ p ∧ align (align p) = align p) :
    (cracked a align crack).Aligning :=
  fun _ position hposition => halign position hposition

/-- Before the crack every byte comes with its checksum. -/
theorem read_cracked_before (a : Algorithm) (align : Int → Int) {request : Request}
    (h : request.position < crack) (mended : Bool) :
    (cracked a align crack).read request mended = .ok (.zero (a.sum [0]) request) mended := by
  simp only [cracked, if_pos h]

/-- At the crack the checksum is wrong. -/
theorem read_cracked_damaged (a : Algorithm) (align : Int → Int) {request : Request}
    (h : request.position = crack) :
    ∃ sum, ¬ sum = a.sum [0] ∧
      (cracked a align crack).read request false = .ok (.zero sum request) false := by
  have hbefore : ¬ request.position < crack := Int.not_lt.mpr (Int.le_of_eq h.symm)
  refine ⟨if a.sum [0] = 0 then 1 else 0, ?_, ?_⟩
  · by_cases hzero : a.sum [0] = 0
    · rw [if_pos hzero, hzero]
      decide
    · rw [if_neg hzero]
      exact fun hsame => hzero hsame.symm
  · simp only [cracked, if_neg hbefore, Bool.false_eq_true, if_false]

/-- Once another copy was looked for, the data ends at the crack. -/
theorem read_cracked_mended (a : Algorithm) (align : Int → Int) {request : Request}
    (h : request.position = crack) :
    (cracked a align crack).read request true = .ok (.ended 1) true := by
  have hbefore : ¬ request.position < crack := Int.not_lt.mpr (Int.le_of_eq h.symm)
  simp only [cracked, if_neg hbefore, if_true]

end Source

/-- A stream that verifies and has attempts for a failover. -/
structure Stream.Verifying (a : Algorithm) (s : Stream) : Prop where
  checksum : s.checksum = some (.ofAlgorithm a)
  verify : s.verify = true
  room : s.sums.length = chunksPerRead * sumWidth
  chunk_pos : 0 < s.maxChunk
  chunk_lt : s.maxChunk < Word.count
  attempts : 1 < s.attempts

namespace Stream.Verifying

variable {a : Algorithm} {s t : Stream}

theorem alike (h : s.Verifying a) (hst : s.Alike t) : t.Verifying a where
  checksum := hst.checksum.trans h.checksum
  verify := hst.verify.trans h.verify
  room := hst.room.trans h.room
  chunk_pos := hst.maxChunk ▸ h.chunk_pos
  chunk_lt := hst.maxChunk ▸ h.chunk_lt
  attempts := hst.attempts ▸ h.attempts

theorem needsChecksum (h : s.Verifying a) : s.needsChecksum := by
  rw [Stream.needsChecksum, h.verify, h.checksum]
  rfl

theorem ready (h : s.Verifying a) : s.Ready := by
  intro c hc
  rw [h.checksum] at hc
  cases hc
  rfl

/-- A stream that verifies asks for the one byte and its checksum. -/
theorem zero_ask (h : s.Verifying a) {size : Nat} (hsize : 0 < size) (sum : UInt32) :
    Reply.zero sum (s.ask size) = .chunk [0] (Stored.store sum) := by
  have hcapacity : (s.ask size).capacity = some (chunksPerRead * sumWidth) := by
    show s.capacity = _
    rw [capacity, if_pos h.needsChecksum, h.room]
  have hzero : List.take size ([0] : Bytes) = [0] :=
    List.take_of_length_le hsize
  rw [Reply.zero, hcapacity]
  show Reply.chunk (List.take size [0]) _ = _
  rw [hzero]
  rfl

/-- A byte is one chunk. -/
theorem count_one (h : s.Verifying a) : Chunk.count 1 s.maxChunk = 1 := by
  have hpos := h.chunk_pos
  have hlt := h.chunk_lt
  rw [Chunk.count_eq (by omega), Nat.add_sub_cancel_left, Nat.div_self hpos]

theorem hasSums (h : s.Verifying a) : s.HasSums 1 := by
  intro _
  rw [h.count_one, h.room]
  decide

end Stream.Verifying

namespace Stream

variable {a : Algorithm} {σ : Type} {s t : Session σ} {target : Target} {x : σ} {sum : UInt32}

/-- A zero passes exactly with its own checksum. -/
theorem mismatch?_zero (hs : s.stream.Verifying a) :
    (s.received target [0] (Stored.store sum) x).stream.mismatch? [0] = none ↔
      sum = a.sum [0] := by
  have hsums : s.stream.HasSums (List.length ([0] : Bytes)) := hs.hasSums
  have hslice : Bytes.slice (0 * s.stream.maxChunk) s.stream.maxChunk [0] = [0] := by
    rw [Nat.zero_mul]
    exact List.take_of_length_le hs.chunk_pos
  have hload : Stored.loadAt 0 (Stored.store sum) = sum := Stored.load_store sum []
  rw [mismatch?_received hsums fun _ => ?_, verdict_eq_none hs.needsChecksum hs.checksum]
  · show (∀ index < Chunk.count 1 s.stream.maxChunk, _) ↔ _
    rw [hs.count_one]
    constructor
    · intro h
      have hpasses : a.sum (Bytes.slice (0 * s.stream.maxChunk) s.stream.maxChunk [0]) =
          Stored.loadAt 0 (Stored.store sum) := h 0 Nat.one_pos
      rw [hslice, hload] at hpasses
      exact hpasses.symm
    · rintro rfl index hindex
      obtain rfl : index = 0 := by omega
      show a.sum (Bytes.slice (0 * s.stream.maxChunk) s.stream.maxChunk [0]) =
        Stored.loadAt 0 (Stored.store (a.sum [0]))
      rw [hslice, hload]
  · show Chunk.count 1 s.stream.maxChunk * sumWidth ≤ _
    rw [hs.count_one]
    exact Nat.le_refl _

/-- An attempt at a source that answers with a zero passes or finds it damaged. -/
theorem Tried.zero {source : Source σ} {size : Nat} {r : Except StreamError Attempt}
    (h : Tried source target size s r t) (hs : s.stream.Verifying a) (hsize : 0 < size)
    (hread : source.read (s.stream.ask size) s.source = .ok (.zero sum (s.stream.ask size)) s.source) :
    t.source = s.source ∧ t.events = s.events ∧
      if sum = a.sum [0] then r = .ok (.passed 1) ∧ t.stream.next = s.stream.next + 1
      else ∃ mismatch, r = .ok (.damaged [0] mismatch) := by
  rw [hs.zero_ask hsize] at hread
  cases h with
  | refused e y hy =>
      rw [hread] at hy
      cases hy
  | ended below y hy =>
      rw [hread] at hy
      cases hy
  | empty sums y hy =>
      rw [hread] at hy
      cases hy
  | crowded data sums y hy _ hfew =>
      rw [hread] at hy
      cases hy
      exact absurd hs.hasSums hfew
  | passed data sums y hy _ _ hmismatch =>
      rw [hread] at hy
      cases hy
      rw [if_pos ((mismatch?_zero hs).mp hmismatch)]
      cases target <;> exact ⟨rfl, rfl, rfl, rfl⟩
  | damaged data sums y mismatch hy _ _ hmismatch =>
      rw [hread] at hy
      cases hy
      have hsum : ¬ sum = a.sum [0] := by
        intro hsum
        rw [(mismatch?_zero hs).mpr hsum] at hmismatch
        cases hmismatch
      rw [if_neg hsum]
      cases target <;> exact ⟨rfl, rfl, mismatch, rfl⟩

/-- A fetch ends with a zero that passes. -/
theorem ends_attempt_zero {source : Source σ} {reseek : Int → StreamM σ Unit} {size left : Nat}
    (hs : s.stream.Verifying a) (hsize : 0 < size)
    (hread : source.read (s.stream.ask size) s.source =
      .ok (.zero (a.sum [0]) (s.stream.ask size)) s.source) :
    Ends (attempt source reseek target size (left + 1)) s
      (fun count t => count = some 1 ∧ Tried source target size s (.ok (.passed 1)) t ∧
        t.source = s.source ∧ t.events = s.events ∧ t.stream.next = s.stream.next + 1)
      (fun _ _ => False) := by
  have hzero : ∀ r t, Tried source target size s r t →
      r = .ok (.passed 1) ∧ t.source = s.source ∧ t.events = s.events ∧
        t.stream.next = s.stream.next + 1 := by
    intro r t ht
    obtain ⟨hsource, hevents, hr⟩ := ht.zero hs hsize hread
    rw [if_pos rfl] at hr
    exact ⟨hr.1, hsource, hevents, hr.2⟩
  refine ends_attempt_succ hs.ready (fun t ht => ?_) (fun count t ht => ?_) (fun e t ht => ?_)
    (fun _ data mismatch t ht => ?_) (fun _ data mismatch t ht _ => ?_)
    (fun _ data mismatch t ht _ => ?_)
  · cases (hzero _ t ht).1
  · obtain ⟨hr, hrest⟩ := hzero _ t ht
    cases hr
    exact ⟨rfl, ht, hrest⟩
  · cases (hzero _ t ht).1
  · cases (hzero _ t ht).1
  · cases (hzero _ t ht).1
  · cases (hzero _ t ht).1

/-- A fetch fails over after a zero that is damaged, if there is another copy. -/
theorem ends_attempt_damaged {source : Source σ} {reseek : Int → StreamM σ Unit} {size left : Nat}
    {Q : Option Nat → Session σ → Prop} {E : StreamError → Session σ → Prop}
    (hs : s.stream.Verifying a) (hsize : 0 < size) (hsum : ¬ sum = a.sum [0])
    (hread : source.read (s.stream.ask size) s.source =
      .ok (.zero sum (s.stream.ask size)) s.source)
    (hswitch : ∀ x, (source.switch s.stream.next x).1.1 = true)
    (hretried : ∀ data mismatch t, Tried source target size s (.ok (.damaged data mismatch)) t →
      t.events = s.events →
      Ends (reseek s.stream.next)
        (((t.told [s.stream.corruption data]).switched source s.stream.next).told
          [.switched s.stream.name s.stream.next (left + 1)])
        (fun _ u => Ends (attempt source reseek target size (left + 1)) u Q E) E) :
    Ends (attempt source reseek target size (left + 2)) s Q E := by
  have hzero : ∀ r t, Tried source target size s r t →
      (∃ mismatch, r = .ok (.damaged [0] mismatch)) ∧ t.events = s.events := by
    intro r t ht
    obtain ⟨-, hevents, hr⟩ := ht.zero hs hsize hread
    rw [if_neg hsum] at hr
    exact ⟨hr, hevents⟩
  refine ends_attempt_succ hs.ready (fun t ht => ?_) (fun count t ht => ?_) (fun e t ht => ?_)
    (fun hlast => absurd hlast (Nat.succ_ne_zero _)) (fun _ data mismatch t _ hnone => ?_)
    (fun _ data mismatch t ht _ => hretried data mismatch t ht (hzero _ t ht).2)
  · obtain ⟨⟨_, hr⟩, -⟩ := hzero _ t ht
    cases hr
  · obtain ⟨⟨_, hr⟩, -⟩ := hzero _ t ht
    cases hr
  · obtain ⟨⟨_, hr⟩, -⟩ := hzero _ t ht
    cases hr
  · exact absurd (hnone.symm.trans (hswitch _)) Bool.false_ne_true

/-! ## Up to the crack -/

/-- A stream on a cracked source that has used up its window and will read at a position. It failed
over at the crack only. -/
structure Along (o : Stream) (crack position : Int) (mended : Bool) (s : Session Bool) : Prop where
  built : o.Alike s.stream
  used : s.stream.filled ≤ s.stream.cursor
  next_eq : s.stream.next = position
  source_eq : s.source = mended
  events : ∀ name p left, Log.Event.switched name p left ∈ s.events → p = crack

namespace Along

variable {o : Stream} {align : Int → Int} {crack position : Int} {mended : Bool}
  {s : Session Bool}

/-- Before the crack, one byte is fetched. -/
theorem ends_refill (ho : o.Verifying a) (h : Along o crack position mended s)
    (hbefore : position < crack) (nesting : Nat) :
    Ends (refill (.cracked a align crack) (nesting + 1)) s
      (fun _ t => o.Alike t.stream ∧ t.stream.filled = 1 ∧ t.stream.cursor = 0 ∧
        t.stream.next = position + 1 ∧ t.source = mended ∧ t.events = s.events)
      (fun _ _ => False) := by
  have hs : s.cleared.stream.Verifying a := ho.alike (h.built.trans s.alike_cleared)
  have hposition : (s.cleared.stream.ask s.stream.maxChunk).position < crack :=
    Int.lt_of_le_of_lt (Int.le_of_eq h.next_eq) hbefore
  have hread := Source.read_cracked_before a align hposition s.cleared.source
  obtain ⟨left, hleft⟩ : ∃ left, s.stream.attempts = left + 1 :=
    ⟨s.stream.attempts - 1, by have hattempts : 1 < s.stream.attempts := hs.attempts; omega⟩
  rw [ends_refill_succ]
  refine ⟨fun hunused => absurd h.used (Nat.not_le_of_lt hunused), fun _ => ?_⟩
  rw [ends_fetchWith, hleft]
  refine (ends_attempt_zero hs hs.chunk_pos hread).mono (fun count t ht => ?_) (fun _ _ ht => ht)
  obtain ⟨rfl, ht, hsource, hevents, hnext⟩ := ht
  refine ⟨((h.built.trans s.alike_cleared).trans ht.alike).trans .placed, rfl, ht.bounds.2.1, ?_,
    hsource.trans h.source_eq, hevents⟩
  show t.stream.next = position + 1
  rw [hnext, ← h.next_eq]
  rfl

/-- The bytes up to the crack are handed out one by one. -/
theorem ends_discardWith (ho : o.Verifying a) (h : Along o crack position mended s)
    {fuel size : Nat} (hsize : position + size = crack) (hfuel : size ≤ fuel)
    (hone : size = 0 → s.stream.cursor = 1) (nesting : Nat) :
    Ends (discardWith (refill (.cracked a align crack) (nesting + 1)) fuel size) s
      (fun _ t => Along o crack crack mended t ∧ t.stream.cursor = 1) (fun _ _ => False) := by
  refine ends_discardWith_of_turns
    (I := fun fuel left t => ∃ p, Along o crack p mended t ∧ p + left = crack ∧ 0 ≤ left ∧
      left ≤ fuel ∧ (left = 0 → t.stream.cursor = 1))
    (J := fun fuel left t => ∃ p, Along o crack (p + 1) mended (t.discarded left) ∧
      t.stream.filled = 1 ∧ t.stream.cursor = 0 ∧ p + left = crack ∧ 0 < left ∧ left ≤ fuel + 1)
    ?done ?spent ?unused ?used ?step ⟨position, h, hsize, by omega, by omega, by omega⟩
  case done =>
    -- The byte before the crack is the last one handed out.
    rintro fuel left t ⟨p, ht, hcrack, hleft, -, hone⟩ hdone
    have hposition : p = crack := by omega
    exact ⟨hposition ▸ ht, hone (by omega)⟩
  case spent =>
    rintro left t ⟨p, -, -, -, hfuel, -⟩ hleft
    omega
  case unused =>
    rintro fuel left t ⟨p, ht, -⟩ hleft hunused
    exact absurd ht.used (Nat.not_le_of_lt hunused)
  case used =>
    rintro fuel left t ⟨p, ht, hcrack, -, hfuel, -⟩ hleft hused
    refine (ht.ends_refill ho (by omega) nesting).mono (fun _ u hu => ?_) (fun _ _ hu => hu)
    obtain ⟨hbuilt, hfilled, hcursor, hnext, hsource, hevents⟩ := hu
    refine ⟨fun hempty => by omega, fun _ => ⟨p, ?_, hfilled, hcursor, hcrack, hleft, hfuel⟩⟩
    have hall : u.stream.filled ≤ (u.discarded left).stream.cursor := by
      show _ ≤ ((u.stream.cursor : Int) +
        min ((u.stream.filled : Int) - u.stream.cursor) left).toNat
      omega
    exact ⟨hbuilt.trans .placed, hall, hnext, hsource,
      hevents ▸ ht.events⟩
  case step =>
    rintro fuel left t ⟨p, ht, hfilled, hcursor, hcrack, hleft, hfuel⟩
    rw [hfilled, hcursor]
    refine ⟨p + 1, ht, by omega, by omega, by omega, fun _ => ?_⟩
    show ((t.stream.cursor : Int) + min ((t.stream.filled : Int) - t.stream.cursor) left).toNat = 1
    omega

/-- Seeking to the crack, which is inside of its chunk, hands out the bytes before it. -/
theorem ends_seekNested (ho : o.Verifying a) (h : Along o crack position mended s)
    (hposition : position ≤ crack) (hcrack : 0 ≤ crack) (halign : align crack < crack)
    {target : Int} (htarget : target = crack) (nesting : Nat) :
    Ends (seekNested (.cracked a align crack) (nesting + 1) target) s
      (fun _ t => Along o crack crack mended t ∧ t.stream.cursor = 1) (fun _ _ => False) := by
  subst htarget
  have hs := ho.alike h.built
  have hjump : Along o target (align target) mended (s.jumped (align target)) :=
    ⟨h.built.trans (s.alike_jumped hs.ready _), Nat.le_refl 0, rfl, h.source_eq, h.events⟩
  rw [seekNested, ends_seekWith]
  refine ⟨fun hneg => by omega, fun _ => ⟨fun hinside => ?_, fun _ => ⟨fun hbefore => ?_, fun _ => ?_⟩⟩⟩
  · have hnext := h.next_eq
    omega
  · exact absurd hbefore (Int.not_lt.mpr (Int.le_of_lt halign))
  · obtain ⟨size, hsize⟩ : ∃ size : Nat, target - align target = size :=
      ⟨(target - align target).toNat, by omega⟩
    show Ends (discardWith _ (s.stream.discardFuel (target - align target)) (target - align target))
      (s.jumped (align target)) _ _
    rw [hsize]
    refine hjump.ends_discardWith ho (by omega) ?_ (fun hzero => by omega) nesting
    rw [discardFuel, Int.toNat_natCast]
    exact Nat.le_add_right _ _

/-- A failover at the crack mends the source. -/
theorem failed_over (a : Algorithm) (align : Int → Int) {t : Session Bool}
    (h : Along o crack crack false s) (hbuilt : s.stream.Alike t.stream)
    (hfilled : t.stream.filled = 0) (hnext : t.stream.next = crack) (hevents : t.events = s.events)
    (data : Bytes) (left : Nat) :
    Along o crack crack true
      (((t.told [s.stream.corruption data]).switched (.cracked a align crack) s.stream.next).told
        [.switched s.stream.name s.stream.next left]) := by
  refine ⟨h.built.trans hbuilt, ?_, hnext, rfl, fun name p left' hevent => ?_⟩
  · show t.stream.filled ≤ t.stream.cursor
    rw [hfilled]
    exact Nat.zero_le _
  · obtain hold | hnew := List.mem_append.mp hevent
    · obtain hold | hnone := List.mem_append.mp hold
      · obtain hold | hreport := List.mem_append.mp hold
        · exact h.events name p left' (hevents ▸ hold)
        · cases List.mem_singleton.mp hreport
      · cases hnone
    · cases List.mem_singleton.mp hnew
      exact h.next_eq

/-- At the crack the fetch of the window fails over, and its end leaves the cursor of the bytes
before behind. -/
theorem ends_refill_crack (ho : o.Verifying a) (h : Along o crack crack false s)
    (hcrack : 0 ≤ crack) (halign : align crack < crack) (nesting : Nat) :
    Ends (refill (.cracked a align crack) (nesting + 2)) s
      (fun _ t => o.Alike t.stream ∧ t.stream.filled = 0 ∧ t.stream.cursor = 1 ∧
        t.stream.next = crack ∧
        ∀ name p left, Log.Event.switched name p left ∈ t.events → p = crack)
      (fun _ _ => False) := by
  have hs : s.cleared.stream.Verifying a := ho.alike (h.built.trans s.alike_cleared)
  have hsource : s.cleared.source = false := h.source_eq
  obtain ⟨sum, hwrong, hread⟩ := Source.read_cracked_damaged a align
    (show (s.cleared.stream.ask s.stream.maxChunk).position = crack from h.next_eq)
  rw [← hsource] at hread
  obtain ⟨left, hleft⟩ : ∃ left, s.stream.attempts = left + 2 :=
    ⟨s.stream.attempts - 2, by have hattempts : 1 < s.stream.attempts := hs.attempts; omega⟩
  rw [ends_refill_succ]
  refine ⟨fun hunused => absurd h.used (Nat.not_le_of_lt hunused), fun _ => ?_⟩
  rw [ends_fetchWith, hleft]
  refine ends_attempt_damaged hs hs.chunk_pos hwrong hread (fun _ => rfl)
    fun data mismatch t ht hevents => ?_
  have hnext : t.stream.next = crack := (ht.bounds.2.2 _ _ rfl).trans h.next_eq
  have hu := failed_over a align h (s.alike_cleared.trans ht.alike) ht.bounds.1 hnext hevents
    data (left + 1)
  refine (hu.ends_seekNested ho (Int.le_refl _) hcrack halign h.next_eq nesting).mono
    (fun _ v hv => ?_) (fun _ _ hv => hv)
  obtain ⟨hv, hcursor⟩ := hv
  -- The interrupted fetch goes on with the cursor of the seek, and there is nothing to fetch.
  have hended := Source.read_cracked_mended a align
    (show (v.stream.ask s.stream.maxChunk).position = crack from hv.next_eq)
  rw [← hv.source_eq] at hended
  refine ends_attempt_ended hended ?_
  exact ⟨hv.built.trans .placed, rfl, hcursor, hv.next_eq, hv.events⟩

end Along

/-- A stream that seeks to a crack inside of a chunk and reads a byte there loses its cursor. -/
theorem exists_cursor_behind {options : Options} {stream : Stream} {align : Int → Int} {crack : Int}
    (hstream : Stream.ofOptions? (some a) options = .ok stream)
    (hchunk : options.maxChunk < Word.count) (hattempts : 1 < options.attempts)
    (hcrack : 0 ≤ crack) (halign : align crack < crack) :
    ∃ t, Session.Reaches (.cracked a align crack) (fun _ => True) (fun _ _ => False)
        { stream, source := false } t ∧
      (∀ name p left, Log.Event.switched name p left ∈ t.events → p = crack) ∧
      t.stream.filled = 0 ∧ t.stream.cursor = 1 ∧ t.stream.next = crack := by
  obtain ⟨hpos, -, hbuilt⟩ := eq_of_ofOptions? hstream
  have ho : Stream.Verifying a { stream with verify := true } := by
    rw [hbuilt]
    exact ⟨rfl, rfl, Bytes.length_zeros _, hpos, hchunk, hattempts⟩
  have hnew : Along { stream with verify := true } crack 0 false
      ((Operation.setVerify true).after (.cracked a align crack) { stream, source := false }) := by
    refine ⟨.refl _, ?_, ?_, rfl, fun name p left hevent => by cases hevent⟩
    · show stream.filled ≤ stream.cursor
      exact Nat.le_of_eq (by rw [hbuilt])
    · show stream.next = 0
      rw [hbuilt]
  generalize hs : (Operation.setVerify true).after (.cracked a align crack)
    { stream, source := false } = s at hnew
  have hseek : Along { stream with verify := true } crack crack false
      ((Operation.seek crack).after (.cracked a align crack) s) := by
    refine Operation.after_of_ends (I := Along { stream with verify := true } crack crack false) ?_
    simp only [Operation.perform, ends_bind, ends_pure, ends_seek]
    exact (hnew.ends_seekNested ho hcrack hcrack halign rfl _).mono
      (fun _ t ht => ht.1) (fun _ _ ht => ht.elim)
  generalize ht : (Operation.seek crack).after (.cracked a align crack) s = t at hseek
  refine ⟨Operation.readByte.after (.cracked a align crack) t, ?_, ?_⟩
  · rw [← ht, ← hs]
    exact .perform _ (.perform _ (.perform _ .refl trivial) trivial) trivial
  · refine Operation.after_of_ends (I := fun u =>
      (∀ name p left, Log.Event.switched name p left ∈ u.events → p = crack) ∧
        u.stream.filled = 0 ∧ u.stream.cursor = 1 ∧ u.stream.next = crack) ?_
    simp only [Operation.perform, readByte, ends_bind, ends_getStream, ends_ite, ends_pure,
      ends_modifyStream, ends_fill]
    refine ⟨fun _ => ?_, fun hunused => absurd hseek.used hunused⟩
    refine (hseek.ends_refill_crack ho hcrack halign _).mono (fun _ u hu => ?_)
      (fun _ _ hu => hu.elim)
    obtain ⟨-, hfilled, hcursor, hnext, hevents⟩ := hu
    refine ⟨fun _ => ⟨hevents, hfilled, hcursor, hnext⟩, fun hunused => ?_⟩
    omega

end Stream

/-- The cursor is inside of the window, the window in a chunk, and the position before the next
fetch by as many bytes as there are to hand out. -/
structure Stream.Within (limit : Nat) (s : Stream) : Prop where
  cursor_le : s.cursor ≤ s.filled
  filled_le : s.filled ≤ limit
  available_le : s.available ≤ limit
  position_eq : s.position = s.next - s.available
  position_le : s.position ≤ s.next

/-- A balanced stream is within the size of its chunks. -/
theorem Stream.Balanced.within {s : Stream} {limit : Nat} (h : s.Balanced)
    (hlimit : s.maxChunk = limit) (hchunk : limit < Word.count) : s.Within limit := by
  subst hlimit
  have hfilled := h.filled_le
  have havailable := h.available_le
  have hposition := h.position_eq hchunk
  exact ⟨h.cursor_le, hfilled, by omega, hposition, by omega⟩

/-- Whatever a source answers within the sizes asked for, and whatever it goes on to between the
operations, the cursor stays in the window, the window in a chunk and the position before the next
fetch, as long as no fetch fails over inside of a chunk. Replicas never do. No position inside of a
chunk could be left out of this: with a checksum and a second attempt, there is a source for each that
fails over nowhere else and leaves the cursor behind the window. -/
theorem balanced_unless_strayed {checksum : Option Algorithm} {options : Options} {stream : Stream}
    (hstream : Stream.ofOptions? checksum options = .ok stream)
    (hchunk : options.maxChunk < Word.half) :
    (∀ (σ : Type) (source : Source σ) (x : σ) (t : Session (Recorded σ)), source.Bounded →
      Session.Reaches source.recorded (fun _ => True) (fun x y => y.calls = x.calls)
        { stream, source := { state := x } } t →
      ¬ t.Strayed source → t.stream.Within options.maxChunk) ∧
    (∀ (replicas : Replicas) (t : Session Replicas),
      Session.Reaches Replicas.source (fun _ => True) (fun _ _ => True)
        { stream, source := replicas } t →
      t.stream.Within options.maxChunk) ∧
    (checksum.isSome → 1 < options.attempts → ∀ (align : Int → Int) (p : Int),
      (∀ q, 0 ≤ q → 0 ≤ align q ∧ align q ≤ q ∧ align (align q) = align q) → 0 ≤ p →
      align p ≠ p →
      ∃ (σ : Type) (source : Source σ) (x : σ) (t : Session σ), source.Bounded ∧ source.Aligning ∧
        (∀ y, source.start y = align) ∧
        Session.Reaches source (fun _ => True) (fun _ _ => False) { stream, source := x } t ∧
        (∀ name q left, Log.Event.switched name q left ∈ t.events → q = p) ∧
        t.stream.filled < t.stream.cursor ∧ options.maxChunk < t.stream.available ∧
        t.stream.next < t.stream.position) := by
  have hhalf : Word.half + Word.half = Word.count := rfl
  have hready := Stream.ready_of_ofOptions? hstream
  have hmaxChunk := (Stream.eq_of_ofOptions? hstream).2.2
  refine ⟨fun σ source x t hbounded ht hstrayed => ?_, fun replicas t ht => ?_,
    fun hsome hattempts align p halign hp hinside => ?_⟩
  · obtain ⟨_, hkept⟩ := ht.kept source.recorded.respects_true (fun _ _ _ => trivial) hready
    have hbalanced := Stream.balanced_of_reaches hbounded.recorded source.warns_strayed hstream
      (fun x y (hxy : y.calls = x.calls) => hxy ▸ List.prefix_refl _) trivial ht hstrayed
    refine hbalanced.within ?_ (by omega)
    rw [hkept.stream.maxChunk, hmaxChunk]
  · obtain ⟨_, hkept⟩ := ht.kept Replicas.source.respects_true (fun _ _ _ => trivial) hready
    have hwarns := Replicas.settles.warns_nothing
    have hbalanced := Stream.balanced_of_reaches Replicas.bounded_source hwarns hstream
      (fun _ _ _ => trivial) trivial ht id
    refine hbalanced.within ?_ (by omega)
    rw [hkept.stream.maxChunk, hmaxChunk]
  · obtain ⟨a, rfl⟩ := Option.isSome_iff_exists.mp hsome
    have hbefore : align p < p := Int.lt_iff_le_and_ne.mpr ⟨(halign p hp).2.1, hinside⟩
    obtain ⟨t, ht, hevents, hfilled, hcursor, -⟩ :=
      Stream.exists_cursor_behind hstream (by omega) hattempts hp hbefore
    refine ⟨Bool, .cracked a align p, false, t, Source.bounded_cracked,
      Source.aligning_cracked halign, fun _ => rfl, ht, hevents, by omega, ?_, ?_⟩
    · rw [Stream.available, hfilled, hcursor]
      exact Nat.lt_of_lt_of_le hchunk (by decide)
    · rw [Stream.position, hfilled, hcursor]
      omega

/-- Scripted answers, with positions aligned to the multiples of a number. -/
def Script.aligned (align : Nat) : Source Script :=
  { Script.source with start := fun _ position => position - position.tmod align }

theorem Script.bounded_aligned (align : Nat) : (Script.aligned align).Bounded := Script.bounded_source

theorem Script.aligning_aligned (align : Nat) : (Script.aligned align).Aligning := by
  intro _ position hposition
  obtain ⟨p, rfl⟩ := Int.eq_ofNat_of_zero_le hposition
  have hle := Nat.mod_le p align
  have hmod : ∀ q : Nat, (q : Int).tmod align = (q % align : Nat) := fun q =>
    Int.tmod_eq_emod_of_nonneg (Int.natCast_nonneg q)
  have hstart : (p : Int) - (p : Int).tmod align = (p - p % align : Nat) := by
    rw [hmod]
    omega
  have hagain : (p - p % align) % align = 0 := Nat.mod_eq_zero_of_dvd (Nat.dvd_sub_mod p)
  simp only [aligned]
  rw [hstart, hmod, hagain]
  omega

/-- A failover at the start of the first chunk leaves the cursor in the window. -/
theorem balanced_after_failover :
    ∃ stream, Stream.ofOptions? (some .crc32) { maxChunk := 4 } = .ok stream ∧
      ∃ t, t = Operation.run (Script.aligned 4).recorded
          { stream
            source :=
              { state :=
                  { align := 4
                    replies := [.gives [9] [0, 0, 0, 0],
                      .gives [1, 2, 3] (Stored.store (Algorithm.crc32.sum [1, 2, 3]))]
                    switches := [true] } } } [.readByte] ∧
        Log.Event.switched "" 0 2 ∈ t.events ∧ t.stream.cursor ≤ t.stream.filled ∧
        t.stream.filled ≤ 4 := by
  have hstream : Stream.ofOptions? (some .crc32) { maxChunk := 4 } = .ok _ := rfl
  refine ⟨_, hstream, _, rfl, ?_⟩
  generalize ht : Operation.run (Script.aligned 4).recorded _ _ = t
  have hevents : t.events = [.corrupted "" 0 1 [9], .switched "" 0 2] := by
    rw [← ht]
    decide +kernel
  have hstrayed : ¬ t.Strayed (Script.aligned 4) := by
    rintro ⟨name, p, left, before, hevent, -, hinside⟩
    rw [hevents] at hevent
    obtain ⟨-, rfl, -⟩ : name = "" ∧ p = 0 ∧ left = 2 := by simpa using hevent
    exact hinside rfl
  have hwithin := (balanced_unless_strayed hstream (by decide)).1 Script (Script.aligned 4) _ t
    (Script.bounded_aligned 4) (by rw [← ht]; exact .run .refl _ fun _ _ => trivial) hstrayed
  exact ⟨hevents ▸ .tail _ (.head _), hwithin.cursor_le, hwithin.filled_le⟩

/-- A failover inside of the first chunk, after three of its bytes, leaves the cursor behind the
window when the data ends there. -/
theorem unbalanced_after_failover :
    ∃ stream t, Stream.ofOptions? (some .crc32) { maxChunk := 4 } = .ok stream ∧
      (Script.aligned 4).Bounded ∧ (Script.aligned 4).Aligning ∧
      Session.Reaches (Script.aligned 4) (fun _ => True) (fun _ _ => False)
        { stream, source := {
            align := 4
            replies := [.gives [1, 2, 3] (Stored.store (Algorithm.crc32.sum [1, 2, 3])),
              .gives [9] [0, 0, 0, 0], .gives [1, 2, 3] (Stored.store (Algorithm.crc32.sum [1, 2, 3]))]
            switches := [true] } } t ∧
      t.stream.filled < t.stream.cursor ∧ 4 < t.stream.available ∧
      t.stream.next < t.stream.position := by
  have hstream : Stream.ofOptions? (some .crc32) { maxChunk := 4 } = .ok _ := rfl
  refine ⟨_, _, hstream, Script.bounded_aligned 4, Script.aligning_aligned 4,
    Session.Reaches.run .refl [.readByte, .readByte, .readByte, .readByte] (fun _ _ => trivial), ?_⟩
  decide +kernel

end ChunkGuard
