import ChunkGuard.Proofs.Refinement
import ChunkGuard.Proofs.Runs

/-!
# Reads after verification is turned on

Without verification a source may be read from anywhere, with verification only from the start of a
chunk. Reads without verification can leave a stream in the middle of a chunk, and turning
verification on leaves it there. Such a stream is stuck (`Session.Stuck`): it hands out what its
window holds and then fails, until it seeks. Whatever was done to a stream on undamaged replicas, it
is stuck or shows a cursor (`Session.Poised.shows_of_not_stuck`), so that exactly the stuck ones read
differently once verification is on (`read_alike_unless_unaligned`).
-/

namespace ChunkGuard

open Session

variable {a : Algorithm} {c c' : Cursor} {s t : Session Replicas}

/-- The session with verification on or off. -/
def Session.verifying {σ : Type} (verify : Bool) (s : Session σ) : Session σ :=
  { s with stream := { s.stream with verify } }

/-- Without verification the session shows the cursor, and with it the stream would fit the replicas. -/
structure Session.Poised (a : Algorithm) (c : Cursor) (s : Session Replicas) : Prop where
  unverified : (s.verifying false).Shows a c
  fits : (s.verifying true).stream.Fits a c.chunk

/-- The stream verifies and will read the source inside of a chunk. -/
structure Session.Stuck (c : Cursor) (s : Session Replicas) : Prop where
  needsChecksum : s.stream.needsChecksum
  unaligned : s.stream.next % (c.chunk : Int) ≠ 0
  inside : s.stream.next < c.data.length

/-- A verified request inside of a chunk is refused. -/
theorem Replicas.Answered.eq_unaligned {r : Replicas} {request : Request} {offset : Nat}
    {reply : Except StreamError Reply} (h : r.Answered request reply)
    (hposition : request.position = offset) (hinside : offset < r.size)
    (hcapacity : request.capacity.isSome) (hunaligned : Chunk.offset r.chunk offset ≠ 0) :
    reply = .error .unaligned := by
  cases h with
  | outside hout => omega
  | plain _ _ _ hnone =>
      rw [hnone] at hcapacity
      cases hcapacity
  | unaligned => rfl
  | belowChunk offset' _ hoffset _ _ haligned | malformed offset' _ hoffset _ _ haligned
  | verified offset' _ hoffset _ _ haligned =>
      obtain rfl : offset = offset' := by omega
      exact absurd haligned hunaligned

/-- A stream that doesn't verify fits replicas of any chunks. -/
theorem Stream.Fits.unverified {chunk : Nat} {s : Stream} (h : s.Fits a chunk) :
    Fits a chunk { s with verify := false } :=
  ⟨h.ready, h.maxChunk_pos, h.attempts_pos, fun hneeds => absurd hneeds Bool.false_ne_true,
    fun hneeds => absurd hneeds Bool.false_ne_true, fun hneeds => absurd hneeds Bool.false_ne_true⟩

namespace Session

/-- Without verification nothing has to be at the start of a chunk. -/
theorem Shows.unverified (h : s.Shows a c) : (s.verifying false).Shows a c := by
  have hview := h.view
  exact ⟨h.fits.unverified, h.replicas, h.copies, h.lent, ⟨hview.cursor_le,
    hview.cursor_le_position, hview.next_eq, hview.inside, hview.window,
    fun hneeds => absurd hneeds Bool.false_ne_true⟩, h.settled⟩

namespace Poised

theorem verifying (h : s.Poised a c) (verify : Bool) : (s.verifying verify).Poised a c :=
  ⟨h.unverified, h.fits⟩

theorem lending (h : s.Poised a c) (lent : Bytes) : Poised a { c with lent } { s with lent } :=
  ⟨h.unverified.lending lent, h.fits⟩

/-- Whether it verifies or not, the stream fits the replicas. -/
theorem fits_self (h : s.Poised a c) : s.stream.Fits a c.chunk := by
  have hneeds : s.stream.needsChecksum → (s.verifying true).stream.needsChecksum := fun hneeds =>
    Bool.and_eq_true_iff.mpr ⟨rfl, (Bool.and_eq_true_iff.mp hneeds).2⟩
  exact ⟨h.fits.ready, h.fits.maxChunk_pos, h.fits.attempts_pos,
    fun hs => h.fits.maxChunk_eq (hneeds hs), fun hs => h.fits.checksum_eq (hneeds hs),
    fun hs => h.fits.room (hneeds hs)⟩

theorem position_eq (h : s.Poised a c) : s.stream.position = c.position :=
  h.unverified.position_eq

theorem next_eq (h : s.Poised a c) : s.stream.next = (c.position + s.stream.available : Nat) := by
  have havailable : s.stream.available = s.stream.filled - s.stream.cursor :=
    h.unverified.available_eq
  rw [havailable]
  exact h.unverified.view.next_eq

/-- A session that isn't stuck shows the cursor. -/
theorem shows_of_not_stuck (h : s.Poised a c) (hstuck : ¬ s.Stuck c) : s.Shows a c := by
  have hoff := h.unverified
  have hview := hoff.view
  have hnext : s.stream.next = (c.position + (s.stream.filled - s.stream.cursor) : Nat) :=
    hview.next_eq
  refine ⟨h.fits_self, hoff.replicas, hoff.copies, hoff.lent, ⟨hview.cursor_le,
    hview.cursor_le_position, hnext, hview.inside, hview.window, fun hneeds => ?_⟩, hoff.settled⟩
  by_cases haligned : (c.position + (s.stream.filled - s.stream.cursor)) % c.chunk = 0
  · exact .inl haligned
  · refine .inr (Nat.le_of_not_lt fun hinside => hstuck ⟨hneeds, ?_, ?_⟩)
    · rw [hnext, ← Int.natCast_emod]
      exact Int.natCast_ne_zero.mpr haligned
    · rw [hnext]
      exact Int.ofNat_lt.mpr hinside

/-- What comes to show a cursor of the same chunks, built as before, is poised there. -/
theorem of_shows (h : s.Poised a c) (hkept : s.Kept Replicas.Moved t) (ht : t.Shows a c')
    (hchunk : c'.chunk = c.chunk) : t.Poised a c' := by
  have halike := hkept.stream
  refine ⟨ht.unverified, ?_⟩
  rw [hchunk]
  exact h.fits.alike ⟨rfl, halike.maxChunk, halike.attempts, halike.name, halike.checksum,
    halike.room, halike.nesting⟩

/-- Going forward in the window moves the cursor by as much. -/
theorem forward (h : s.Poised a c) {n : Nat} (hn : n ≤ s.stream.filled - s.stream.cursor) :
    Poised a { c with position := c.position + n }
      { s with stream := { s.stream with cursor := s.stream.cursor + n } } :=
  ⟨h.unverified.forward hn, h.fits.alike .placed⟩

/-- Bytes of the window are taken by copying them. -/
theorem copied (h : s.Poised a c) (offset : Nat) {n : Nat}
    (hn : n ≤ s.stream.filled - s.stream.cursor) :
    Poised a (c.taken offset n)
      { s with
        lent := Bytes.write offset (Bytes.padded s.stream.cursor n s.stream.window) s.lent
        stream := { s.stream with cursor := s.stream.cursor + n } } :=
  ⟨h.unverified.copied offset hn, h.fits.alike .placed⟩

/-- A window that is used up can be emptied. -/
theorem cleared (h : s.Poised a c) (hused : s.stream.filled ≤ s.stream.cursor) :
    s.cleared.Poised a c :=
  ⟨h.unverified.emptied hused (.refl _), h.fits.alike .placed⟩

/-! ## Stuck streams -/

/-- Whatever is asked for inside of a chunk is refused. -/
theorem read_of_stuck (h : s.Poised a c) (hstuck : s.Stuck c) (size : Nat) :
    Replicas.source.read (s.stream.ask size) s.source = .error .unaligned s.source := by
  have hreplicas := h.unverified.replicas
  have hchunk : s.source.chunk = c.chunk := hreplicas.chunk_eq
  obtain ⟨p, hp⟩ : ∃ p : Nat, s.stream.next = p := ⟨_, h.next_eq⟩
  have hinside : p < s.source.size := by
    have hsize : s.source.size = c.data.length := hreplicas.size
    have hnext := hstuck.inside
    omega
  have hunaligned : Chunk.offset s.source.chunk p ≠ 0 := by
    have hmod := hstuck.unaligned
    rw [hchunk, Chunk.offset_natCast hreplicas.small.2]
    rwa [hp] at hmod
  have hanswered := Replicas.ends_read s.source (s.stream.ask size)
  have hcapacity := (Stream.isSome_capacity s.stream).trans hstuck.needsChecksum
  cases hread : Replicas.source.read (s.stream.ask size) s.source with
  | ok reply x => cases (hanswered.ok hread).1.eq_unaligned hp hinside hcapacity hunaligned
  | error e x =>
      obtain ⟨hreply, rfl⟩ := hanswered.error hread
      cases hreply.eq_unaligned hp hinside hcapacity hunaligned
      rfl

theorem ends_fetchWith_stuck (h : s.Poised a c) (hstuck : s.Stuck c)
    (reseek : Int → StreamM Replicas Unit) (target : Stream.Target) (size : Nat) :
    Ends (Stream.fetchWith Replicas.source reseek target size) s (fun _ _ => False)
      (fun e t => e = .unaligned ∧ t = s.cleared) := by
  obtain ⟨left, hleft⟩ := Nat.exists_eq_succ_of_ne_zero (Nat.ne_of_gt h.fits_self.attempts_pos)
  rw [Stream.ends_fetchWith, hleft]
  exact Stream.ends_attempt_refused (h.read_of_stuck hstuck size) ⟨rfl, rfl⟩

theorem ends_fill_stuck (h : s.Poised a c) (hstuck : s.Stuck c)
    (hused : s.stream.filled ≤ s.stream.cursor) :
    Ends (Stream.fill Replicas.source) s (fun _ _ => False)
      (fun e t => e = .unaligned ∧ t = s.cleared) := by
  rw [Stream.ends_fill, Stream.ends_refill_succ]
  refine ⟨fun hunused => absurd hused (Nat.not_le_of_lt hunused), fun _ => ?_⟩
  exact (h.ends_fetchWith_stuck hstuck _ _ _).mono (fun _ _ hfalse => hfalse) (fun _ _ ht => ht)

/-- A stuck stream with its window used up fails to read. -/
theorem ends_readOnce_stuck (h : s.Poised a c) (hstuck : s.Stuck c)
    (hused : s.stream.available = 0) (offset size : Nat) :
    Ends (Stream.readOnce Replicas.source offset size) s (fun _ _ => False)
      (fun e t => e = .unaligned ∧ t.Poised a c) := by
  have havailable : s.stream.available = s.stream.filled - s.stream.cursor :=
    h.unverified.available_eq
  have hcleared := h.cleared (by omega)
  simp only [Stream.readOnce, ends_bind, ends_getStream, ends_ite, Stream.ends_fetchLent]
  refine ⟨fun _ => ⟨fun _ => ?_, fun _ => ?_⟩, fun hsome => absurd hused hsome⟩
  · refine (h.ends_fetchWith_stuck hstuck _ _ _).mono (fun _ _ hfalse => hfalse) (fun e t ht => ?_)
    exact ⟨ht.1, ht.2 ▸ hcleared⟩
  · refine (h.ends_fill_stuck hstuck (by omega)).mono (fun _ _ hfalse => hfalse.elim)
      (fun e t ht => ?_)
    exact ⟨ht.1, ht.2 ▸ hcleared⟩

/-- A stuck stream hands out what its window holds. If that isn't enough, it fails. -/
theorem ends_readUpTo_stuck (h : s.Poised a c) (hstuck : s.Stuck c) {fuel offset size : Nat}
    (hsize : 0 < size) (hfuel : size ≤ fuel) (hoffset : offset ≤ c.lent.length) :
    Ends (Stream.readUpTo Replicas.source fuel offset size) s
      (fun count t => count = size ∧ size ≤ s.stream.available ∧ t.Poised a (c.taken offset size))
      (fun e t => e = .unaligned ∧ s.stream.available < size ∧
        t.Poised a (c.taken offset s.stream.available)) := by
  obtain ⟨fuel, rfl⟩ : ∃ n, fuel = n + 1 := ⟨fuel - 1, by omega⟩
  simp only [Stream.readUpTo, ends_bind]
  by_cases hused : s.stream.available = 0
  · refine (h.ends_readOnce_stuck hstuck hused offset size).mono (fun _ _ hfalse => hfalse.elim)
      (fun e t ht => ?_)
    rw [hused, Cursor.taken_zero hoffset]
    exact ⟨ht.1, hsize, ht.2⟩
  have havailable : s.stream.available = s.stream.filled - s.stream.cursor :=
    h.unverified.available_eq
  have hcopied := h.copied offset (n := min s.stream.available size) (by omega)
  simp only [Stream.readOnce, ends_bind, ends_getStream, ends_ite, ends_pure, Stream.ends_copy]
  refine ⟨fun hnone => absurd hnone hused, fun _ => ⟨fun hfull => ?_, fun hmore => ?_⟩⟩
  · have hall : min s.stream.available size = size := by omega
    rw [hall] at hcopied ⊢
    exact ⟨rfl, by omega, hcopied⟩
  · -- The window is used up and there is more to read.
    have hall : min s.stream.available size = s.stream.available := by omega
    rw [hall] at hcopied ⊢
    obtain ⟨fuel, rfl⟩ : ∃ n, fuel = n + 1 := ⟨fuel - 1, by omega⟩
    have hafter := hcopied.unverified.available_eq
    have hzero : s.stream.filled - (s.stream.cursor + s.stream.available) = 0 := by omega
    simp only [Stream.readUpTo, ends_bind]
    refine (hcopied.ends_readOnce_stuck ⟨hstuck.needsChecksum, hstuck.unaligned, hstuck.inside⟩
      (hafter.trans hzero) _ _).mono (fun _ _ hfalse => hfalse.elim) (fun e t ht => ?_)
    exact ⟨ht.1, by omega, ht.2⟩

theorem ends_read_stuck (h : s.Poised a c) (hstuck : s.Stuck c) {offset size : Nat}
    (hsize : 0 < size) (hrange : offset + size ≤ c.lent.length) :
    Ends (Stream.read Replicas.source offset size) s
      (fun count t => count = some size ∧ size ≤ s.stream.available ∧
        t.Poised a (c.taken offset size))
      (fun e t => e = .unaligned ∧ s.stream.available < size ∧
        t.Poised a (c.taken offset s.stream.available)) := by
  simp only [Stream.read, ends_bind, ends_get, ends_ite, ends_throw, ends_pure]
  have hlent : s.lent = c.lent := h.unverified.lent
  rw [hlent]
  refine ⟨fun houtside => by omega, fun _ => ⟨fun hzero => by omega, fun _ => ?_⟩⟩
  refine (h.ends_readUpTo_stuck hstuck hsize (Nat.le_refl size) (by omega)).mono
    (fun count t ht => ?_) (fun _ _ ht => ht)
  obtain ⟨rfl, ht⟩ := ht
  rw [if_neg (Nat.ne_of_gt hsize)]
  exact ⟨rfl, ht⟩

end Poised

/-! ## What every operation keeps -/

/-- The session is somewhere in the data, stuck or not. -/
def PoisedOn (a : Algorithm) (data : Bytes) (chunk : Nat) (s : Session Replicas) : Prop :=
  ∃ c : Cursor, s.Poised a c ∧ c.data = data ∧ c.chunk = chunk

namespace PoisedOn

variable {data : Bytes} {chunk : Nat}

theorem keeps_readByte : Keeps (PoisedOn a data chunk) (Stream.readByte Replicas.source) := by
  rintro s ⟨c, h, rfl, rfl⟩
  by_cases hstuck : s.Stuck c
  · simp only [Stream.readByte, ends_bind, ends_getStream, ends_ite, ends_pure, ends_modifyStream]
    refine ⟨fun hused => ?_, fun hunused => ⟨fun hused => absurd hused hunused, fun _ => ?_⟩⟩
    · refine (h.ends_fill_stuck hstuck hused).mono (fun _ _ hfalse => hfalse.elim) (fun e t ht => ?_)
      exact ⟨c, ht.2 ▸ h.cleared hused, rfl, rfl⟩
    · exact ⟨_, h.forward (n := 1) (by omega), rfl, rfl⟩
  · have hkept := Stream.keeps_readByte Replicas.respects_moved h.fits_self.ready s
      (.refl Replicas.respects_moved s)
    refine ((h.shows_of_not_stuck hstuck).ends_readByte.and hkept).mono (fun byte t ht => ?_)
      (fun _ _ hfalse => hfalse.1.elim)
    obtain ⟨⟨-, ht⟩, hkept⟩ := ht
    split at ht
    · exact ⟨_, h.of_shows hkept ht rfl, rfl, rfl⟩
    · exact ⟨_, h.of_shows hkept ht rfl, rfl, rfl⟩

theorem keeps_read (offset size : Nat) :
    Keeps (PoisedOn a data chunk) (Stream.read Replicas.source offset size) := by
  rintro s ⟨c, h, rfl, rfl⟩
  have hlent : s.lent = c.lent := h.unverified.lent
  by_cases hrange : offset + size ≤ c.lent.length ∧ 0 < size
  · by_cases hstuck : s.Stuck c
    · refine (h.ends_read_stuck hstuck hrange.2 hrange.1).mono (fun count t ht => ?_)
        (fun e t ht => ?_)
      · exact ⟨_, ht.2.2, rfl, rfl⟩
      · exact ⟨_, ht.2.2, rfl, rfl⟩
    · have hkept := Stream.keeps_read Replicas.respects_moved h.fits_self.ready offset size s
        (.refl Replicas.respects_moved s)
      have hinside : ¬ (c.lent.length < offset ∨ c.lent.length - offset < size) := by omega
      have hread := Stream.ends_seekable_read.mp ((h.shows_of_not_stuck hstuck).ends_read hinside)
      refine (hread.and hkept).mono (fun count t ht => ?_) (fun _ _ hfalse => hfalse.1.elim)
      exact ⟨_, h.of_shows ht.2 ht.1.2 rfl, rfl, rfl⟩
  · simp only [Stream.read, ends_bind, ends_get, ends_ite, ends_throw, ends_pure]
    rw [hlent]
    refine ⟨fun _ => ⟨c, h, rfl, rfl⟩, fun hinside => ⟨fun _ => ⟨c, h, rfl, rfl⟩, fun hsome => ?_⟩⟩
    omega

theorem keeps_seek (position : Int) :
    Keeps (PoisedOn a data chunk) (Stream.seek Replicas.source position) := by
  rintro s ⟨c, h, rfl, rfl⟩
  rw [Stream.ends_seek]
  obtain hneg | ⟨p, rfl⟩ : position < 0 ∨ ∃ p : Nat, position = p := by
    by_cases hneg : position < 0
    · exact .inl hneg
    · exact .inr ⟨position.toNat, by omega⟩
  · rw [Stream.seekNested, Stream.ends_seekWith]
    exact ⟨fun _ => ⟨c, h, rfl, rfl⟩, fun hpos => absurd hneg hpos⟩
  have hgoTo : (c.goTo p).data = c.data ∧ (c.goTo p).chunk = c.chunk := by
    rw [Cursor.goTo_eq]
    exact ⟨rfl, rfl⟩
  have hoff := h.unverified
  by_cases hinside : s.stream.next - s.stream.filled ≤ p ∧ (p : Int) < s.stream.next
  · rw [Stream.seekNested, Stream.ends_seekWith]
    refine ⟨fun hneg => by omega, fun _ => ⟨fun _ => ?_, fun houtside => absurd hinside houtside⟩⟩
    refine ⟨_, ⟨hoff.moved_inside hinside, ?_⟩, hgoTo⟩
    rw [hgoTo.2]
    exact h.fits.alike .placed
  · have hkept := Stream.keeps_seekNested Replicas.respects_moved h.fits_self.ready
      (s.stream.nesting + 2) p s (.refl Replicas.respects_moved s)
    refine ((Shows.ends_seekNested_outside h.fits_self hoff.replicas hoff.copies hoff.lent hinside
      _).and hkept).mono (fun _ t ht => ?_) (fun _ _ hfalse => hfalse.1.elim)
    exact ⟨_, h.of_shows ht.2 ht.1 hgoTo.2, hgoTo⟩

theorem keeps_switch (position : Int) :
    Keeps (PoisedOn a data chunk) (Session.switch Replicas.source position) := by
  rintro s ⟨c, h, rfl, rfl⟩
  have hswitch := h.unverified.follows_switch position
  simp only [Shows.Follows, Cursor.perform, Operation.perform, ends_bind, ends_get, ends_set,
    ends_pure, ends_switch] at hswitch
  rw [ends_switch]
  exact ⟨_, ⟨hswitch.2, h.fits⟩, rfl, rfl⟩

/-- Whatever is done with a stream on undamaged replicas, it is somewhere in the data. -/
theorem keeps (operation : Operation) :
    Keeps (PoisedOn a data chunk) (operation.perform Replicas.source) :=
  Operation.keeps_perform keeps_readByte keeps_read keeps_seek keeps_switch operation
    (fun buffer _ _ ⟨_, h, hdata, hchunk⟩ => ⟨_, h.lending buffer, hdata, hchunk⟩)
    (fun verify _ _ ⟨c, h, hdata, hchunk⟩ => ⟨c, h.verifying verify, hdata, hchunk⟩)

end PoisedOn

/-- A stream that was built on replicas of the data is somewhere in it. -/
theorem PoisedOn.of_built {data : Bytes} {checksum : Option Algorithm} {options : Options}
    {list : List Replica} {replicas : Replicas} {stream : Stream}
    (hdata : data.length < Word.half) (hchunk : options.maxChunk < Word.half)
    (hlist : ∀ r ∈ list, r.Holds a options.maxChunk data)
    (hreplicas : Replicas.ofList? (list.map Replica.storages) options.maxChunk = .ok replicas)
    (hstream : Stream.ofOptions? checksum options = .ok stream)
    (hchecksum : ∀ algorithm ∈ checksum, algorithm = a) :
    PoisedOn a data options.maxChunk { stream, source := replicas } := by
  have hshows := Shows.of_built hdata hchunk hlist hreplicas hstream fun hneeds => by
    obtain ⟨algorithm, rfl, -⟩ := Stream.checksum_of_ofOptions? hstream hneeds
    exact ⟨rfl, congrArg some (hchecksum algorithm rfl)⟩
  refine ⟨_, ⟨hshows.unverified, ?_⟩, rfl, rfl⟩
  obtain ⟨-, -, rfl⟩ := Stream.eq_of_ofOptions? hstream
  refine ⟨hshows.fits.ready, hshows.fits.maxChunk_pos, hshows.fits.attempts_pos, fun _ => rfl,
    fun hneeds => ?_, fun hneeds => ?_⟩
  · cases checksum with
    | none => exact absurd hneeds Bool.false_ne_true
    | some algorithm =>
        exact congrArg (fun a => some (Checksum.ofAlgorithm a)) (hchecksum algorithm rfl)
  · cases checksum with
    | none => exact absurd hneeds Bool.false_ne_true
    | some algorithm => exact Bytes.length_zeros _

/-! ## What a caller sees of a read -/

theorem sights_singleton {σ : Type} {source : Source σ} {s : Session σ} {operation : Operation}
    {sight : Sight}
    (h : Ends (operation.perform source) s
      (fun outcome t => Sight.mk (.ok outcome) t.lent t.stream.position = sight)
      (fun e t => Sight.mk (.error e) t.lent t.stream.position = sight)) :
    s.sights source [operation] = [sight] := by
  simp only [Session.sights, ChunkGuard.sights]
  cases hm : operation.perform source s with
  | ok outcome t => exact congrArg (fun sight => [sight]) (h.ok hm)
  | error e t => exact congrArg (fun sight => [sight]) (h.error hm)

namespace Poised

variable {buffer : Bytes} {offset size : Nat}

/-- A stream that isn't stuck, or has enough in its window, reads what comes next of the data. -/
theorem sights_read (h : s.Poised a c) (hready : ¬ s.Stuck c ∨ size ≤ s.stream.available)
    (hrange : offset + size ≤ buffer.length) (hsize : 0 < size) :
    s.sights Replicas.source [.read buffer offset size] =
      [⟨.ok (Cursor.answer size (min size (c.data.length - c.position))),
        Bytes.write offset (Bytes.slice c.position size c.data) buffer,
        c.position + min size (c.data.length - c.position)⟩] := by
  have hseen : ∀ t : Session Replicas,
      (t.verifying false).Shows a (Cursor.taken offset (c.left size) { c with lent := buffer }) →
      t.lent = Bytes.write offset (Bytes.slice c.position size c.data) buffer ∧
        t.stream.position = c.position + min size (c.data.length - c.position) := by
    intro t ht
    refine ⟨?_, ht.position_eq⟩
    rw [← Bytes.slice_min]
    exact ht.lent
  refine sights_singleton ?_
  simp only [Operation.perform, ends_bind, ends_pure, Operation.ends_lend]
  by_cases hstuck : s.Stuck c
  · have hroom : size ≤ s.stream.available := hready.resolve_left fun hnot => hnot hstuck
    have hstuck' : Stuck { c with lent := buffer } { s with lent := buffer } :=
      ⟨hstuck.needsChecksum, hstuck.unaligned, hstuck.inside⟩
    have hinside : size ≤ c.data.length - c.position := by
      have hoff := h.unverified
      have havailable : s.stream.available = s.stream.filled - s.stream.cursor := hoff.available_eq
      have hinside : c.position + (s.stream.filled - s.stream.cursor) ≤ c.data.length :=
        hoff.view.inside (show 0 < s.stream.filled by omega)
      omega
    rw [Stream.ends_seekable_read]
    refine ((h.lending buffer).ends_read_stuck hstuck' hsize hrange).mono (fun count t ht => ?_)
      (fun e t ht => absurd hroom (Nat.not_le_of_lt ht.2.1))
    obtain ⟨rfl, -, ht⟩ := ht
    have hleft : c.left size = size := Nat.min_eq_left hinside
    rw [← hleft] at ht
    obtain ⟨hlent, hposition⟩ := hseen t ht.unverified
    rw [hlent, hposition, Nat.min_eq_left hinside, Cursor.answer,
      if_neg fun hnone => absurd hnone.1 hnone.2]
    rfl
  · have hshows := (h.shows_of_not_stuck hstuck).lending buffer
    refine (hshows.ends_read (show ¬ (buffer.length < offset ∨ buffer.length - offset < size) by
      omega)).mono (fun count t ht => ?_) (fun _ _ hfalse => hfalse.elim)
    obtain ⟨rfl, ht⟩ := ht
    obtain ⟨hlent, hposition⟩ := hseen t ht.unverified
    rw [hlent, hposition]
    rfl

/-- A stuck stream hands out its window, fails, and is left where the window ended. -/
theorem sights_read_stuck (h : s.Poised a c) (hstuck : s.Stuck c)
    (hmore : s.stream.available < size) (hrange : offset + size ≤ buffer.length) :
    s.sights Replicas.source [.read buffer offset size] =
      [⟨.error .unaligned,
        Bytes.write offset (Bytes.slice c.position s.stream.available c.data) buffer,
        s.stream.next⟩] := by
  have hstuck' : Stuck { c with lent := buffer } { s with lent := buffer } :=
    ⟨hstuck.needsChecksum, hstuck.unaligned, hstuck.inside⟩
  refine sights_singleton ?_
  simp only [Operation.perform, ends_bind, ends_pure, Operation.ends_lend, Stream.ends_seekable_read]
  refine ((h.lending buffer).ends_read_stuck hstuck' (Nat.zero_lt_of_lt hmore) hrange).mono
    (fun count t ht => absurd ht.2.1 (Nat.not_le_of_lt hmore)) (fun e t ht => ?_)
  obtain ⟨rfl, -, ht⟩ := ht
  have hlent : t.lent = Bytes.write offset (Bytes.slice c.position s.stream.available c.data) buffer :=
    ht.unverified.lent
  rw [hlent, ht.position_eq, h.next_eq]
  rfl

end Poised

end Session

/-- On undamaged replicas, and after whatever was done to the stream, a read without verification gives
what comes next of the data. Turning verification on before changes nothing about it, unless the read
needs more than the window holds and the source would be read inside of a chunk: then it hands out the
window and fails. -/
theorem read_alike_unless_unaligned {data : Bytes} {checksum : Option Algorithm} {options : Options}
    {list : List Replica} {replicas : Replicas} {stream : Stream} {buffer : Bytes}
    {offset size : Nat} (hdata : data.length < Word.half) (hchunk : options.maxChunk < Word.half)
    (hlist : ∀ r ∈ list, r.Holds a options.maxChunk data)
    (hreplicas : Replicas.ofList? (list.map Replica.storages) options.maxChunk = .ok replicas)
    (hstream : Stream.ofOptions? checksum options = .ok stream)
    (hchecksum : ∀ algorithm ∈ checksum, algorithm = a)
    (ht : Session.Reaches Replicas.source (fun _ => True) (fun _ _ => False)
      { stream, source := replicas } t)
    (hoff : t.stream.needsChecksum = false) (hrange : offset + size ≤ buffer.length)
    (hsize : 0 < size) :
    t.sights Replicas.source [.read buffer offset size] =
        [⟨.ok (Cursor.answer size (min size (data.length - t.stream.position.toNat))),
          Bytes.write offset (Bytes.slice t.stream.position.toNat size data) buffer,
          t.stream.position + min size (data.length - t.stream.position.toNat)⟩] ∧
      (((Operation.setVerify true).after Replicas.source t).sights Replicas.source
            [.read buffer offset size] =
          t.sights Replicas.source [.read buffer offset size] ↔
        checksum = none ∨ size ≤ t.stream.available ∨
          t.stream.next % (options.maxChunk : Int) = 0 ∨ data.length ≤ t.stream.next) ∧
      (checksum.isSome → t.stream.available < size →
        t.stream.next % (options.maxChunk : Int) ≠ 0 → t.stream.next < data.length →
        ((Operation.setVerify true).after Replicas.source t).sights Replicas.source
            [.read buffer offset size] =
          [⟨.error .unaligned,
            Bytes.write offset (Bytes.slice t.stream.position.toNat t.stream.available data) buffer,
            t.stream.next⟩]) := by
  obtain ⟨c, h, rfl, hc⟩ := ht.keeps
    (Session.PoisedOn.of_built hdata hchunk hlist hreplicas hstream hchecksum)
    (fun operation _ => Session.PoisedOn.keeps operation) (fun _ _ _ hx => hx.elim)
  rw [← hc]
  have hposition : t.stream.position = c.position := h.position_eq
  have htoNat : t.stream.position.toNat = c.position := by omega
  rw [htoNat, hposition]
  have hneeds : (t.verifying true).stream.needsChecksum = checksum.isSome := by
    obtain ⟨verify, hkept⟩ := ht.kept Replicas.respects_moved (fun _ _ hx => hx.elim)
      (Stream.ready_of_ofOptions? hstream)
    obtain ⟨-, -, hbuilt⟩ := Stream.eq_of_ofOptions? hstream
    show (true && t.stream.checksum.isSome) = _
    rw [hkept.stream.checksum, hbuilt]
    exact Option.isSome_map
  have hfree : ¬ t.Stuck c := fun hstuck =>
    Bool.false_ne_true (hoff.symm.trans hstuck.needsChecksum)
  have hread := h.sights_read (.inl hfree) hrange hsize
  have hfails : checksum.isSome → t.stream.available < size →
      t.stream.next % (c.chunk : Int) ≠ 0 → t.stream.next < c.data.length →
      (t.verifying true).sights Replicas.source [.read buffer offset size] =
        [⟨.error .unaligned,
          Bytes.write offset (Bytes.slice c.position t.stream.available c.data) buffer,
          t.stream.next⟩] := fun hsome hmore hmod hinside =>
    (h.verifying true).sights_read_stuck ⟨hneeds.trans hsome, hmod, hinside⟩ hmore hrange
  refine ⟨hread, ⟨fun hsame => ?_, fun hharmless => ?_⟩, hfails⟩
  · -- A stream that would get stuck fails, and without verification it doesn't.
    refine Decidable.byContradiction fun hnot => ?_
    simp only [not_or, Int.not_le, Nat.not_le] at hnot
    obtain ⟨hsome, hmore, hmod, hinside⟩ := hnot
    have hfails := hfails (Option.isSome_iff_ne_none.mpr hsome) hmore hmod hinside
    have hsame : (t.verifying true).sights Replicas.source [.read buffer offset size] =
      t.sights Replicas.source [.read buffer offset size] := hsame
    rw [hfails, hread] at hsame
    cases hsame
  · refine Eq.trans ((h.verifying true).sights_read ?_ hrange hsize) hread.symm
    by_cases hroom : size ≤ t.stream.available
    · exact .inr hroom
    · refine .inl fun hstuck => ?_
      obtain hnone | hroom' | hmod | hend := hharmless
      · have hneeds := hneeds.symm.trans hstuck.needsChecksum
        rw [hnone] at hneeds
        cases hneeds
      · exact hroom hroom'
      · exact hstuck.unaligned hmod
      · exact absurd hstuck.inside (Int.not_lt.mpr hend)

/-- A byte of a chunk was read without verification. The rest of the chunk and what follows is read in
the same way with it. -/
theorem read_alike_after_readByte :
    ∃ replicas stream,
      Replicas.ofList? ([Replica.ofBytes .crc32 2 [1, 2, 3, 4, 5]].map Replica.storages) 2 =
        .ok replicas ∧
      Stream.ofOptions? (some .crc32) { maxChunk := 2, verify := false } = .ok stream ∧
      ∃ t, t = Operation.readByte.after Replicas.source { stream, source := replicas } ∧
        t.stream.needsChecksum = false ∧
        ((Operation.setVerify true).after Replicas.source t).sights Replicas.source
          [.read (Bytes.zeros 3) 0 3] = [⟨.ok (.count 3), [2, 3, 4], 4⟩] := by
  have hreplicas : Replicas.ofList?
      ([Replica.ofBytes .crc32 2 [1, 2, 3, 4, 5]].map Replica.storages) 2 = .ok _ := rfl
  have hstream : Stream.ofOptions? (some .crc32) { maxChunk := 2, verify := false } = .ok _ := rfl
  refine ⟨_, _, hreplicas, hstream, _, rfl, rfl, ?_⟩
  generalize ht : Operation.readByte.after (Replicas.source : Source Replicas) _ = t
  have hholds : ∀ r ∈ [Replica.ofBytes .crc32 2 [1, 2, 3, 4, 5]],
      r.Holds .crc32 2 [1, 2, 3, 4, 5] := by
    intro r hr
    rw [List.mem_singleton.mp hr]
    exact Replica.holds_ofBytes _ _ _
  have hstate : t.stream.needsChecksum = false ∧ t.stream.next % 2 = 0 ∧ t.stream.position = 1 := by
    rw [← ht]
    decide +kernel
  obtain ⟨hoff, hnext, hposition⟩ := hstate
  obtain ⟨hread, halike, -⟩ := read_alike_unless_unaligned (t := t) (by decide) (by decide)
    hholds hreplicas hstream (fun algorithm halgorithm => (Option.some.inj halgorithm).symm)
    (ht ▸ .perform .readByte .refl trivial) hoff (show 0 + 3 ≤ (Bytes.zeros 3).length by decide)
    (by decide)
  rw [halike.mpr (.inr (.inr (.inl hnext))), hread, hposition]
  rfl

/-- Three bytes of chunks of two were read at once without verification. The next two are read as
well, but not with verification, though the replica isn't damaged. -/
theorem not_read_alike_after_read :
    ∃ replicas stream,
      (∀ r ∈ [Replica.ofBytes .crc32 2 [1, 2, 3, 4, 5]], r.Holds .crc32 2 [1, 2, 3, 4, 5]) ∧
      Replicas.ofList? ([Replica.ofBytes .crc32 2 [1, 2, 3, 4, 5]].map Replica.storages) 2 =
        .ok replicas ∧
      Stream.ofOptions? (some .crc32) { maxChunk := 2, verify := false } = .ok stream ∧
      ∃ t, t = (Operation.read (Bytes.zeros 3) 0 3).after Replicas.source
          { stream, source := replicas } ∧
        t.stream.needsChecksum = false ∧
        t.sights Replicas.source [.read (Bytes.zeros 2) 0 2] = [⟨.ok (.count 2), [4, 5], 5⟩] ∧
        ((Operation.setVerify true).after Replicas.source t).sights Replicas.source
          [.read (Bytes.zeros 2) 0 2] = [⟨.error .unaligned, [0, 0], 3⟩] := by
  refine ⟨_, _, fun r hr => ?_, rfl, rfl, _, rfl, rfl, rfl, rfl⟩
  rw [List.mem_singleton.mp hr]
  exact Replica.holds_ofBytes _ _ _

end ChunkGuard
