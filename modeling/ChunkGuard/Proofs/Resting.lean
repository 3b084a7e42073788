import ChunkGuard.Proofs.Failover

/-!
# Reading whole batches

A stream that verifies and whose window is empty rests at its position. If it reads as many chunks as
one request may ask for, it reads past its window, and comes to rest again behind what it read: the
bytes of the first intact replica from the current one on (`Stream.Resting.ends_read_intact`). Without
one the read fails, and where the data has ended it reads nothing.
-/

namespace ChunkGuard

open Session

/-- The stream verifies, its window is empty, and its replicas hold `n` bytes each, of which it reads
those at `p` next. -/
structure Stream.Resting (a : Algorithm) (chunk n p : Nat) (s : Session (Recorded Replicas)) :
    Prop where
  matched : s.Matched (some a) chunk
  needsChecksum : s.stream.needsChecksum
  uniform : s.source.state.Uniform n
  filled : s.stream.filled = 0
  cursor : s.stream.cursor = 0
  next_eq : s.stream.next = p

/-- So many bytes from `p` on were read to the start of the lent buffer, as the replica at an index
has them, which is the current one now. The stream rests behind them. -/
structure Session.Took (a : Algorithm) (chunk n p count i : Nat) (s t : Session (Recorded Replicas)) :
    Prop where
  resting : Stream.Resting a chunk n (p + count) t
  kept : s.Kept (fun x y => x.state.Moved y.state) t
  current : t.source.state.current = i
  length : t.lent.length = s.lent.length
  bytes : ∀ k < count, t.lent[k]? = (s.source.state.get i).data.bytes[p + k]?

namespace Stream.Resting

variable {a : Algorithm} {chunk n p size : Nat} {s t : Session (Recorded Replicas)}

theorem available_eq (h : Resting a chunk n p s) : s.stream.available = 0 := by
  rw [Stream.available, h.filled, h.cursor]
  rfl

theorem size_eq (h : Resting a chunk n p s) : s.source.state.size = n :=
  h.uniform.size _ h.matched.inOrder.current_lt

/-- Before the end of the data, a fetch may begin. -/
theorem facing (h : Resting a chunk n p s) (haligned : p % chunk = 0) (hinside : p < n) :
    Facing a chunk n p s.cleared :=
  ⟨h.matched.alike s.alike_cleared rfl, h.needsChecksum, h.uniform, rfl, rfl, h.next_eq, haligned,
    hinside⟩

/-- What was fetched to the start of the lent buffer was read there. -/
theorem took (h : Resting a chunk n p s) {count i : Nat}
    (hfetching : Fetching (.lent 0) p (p + count) s.cleared t)
    (hfetched : s.cleared.FetchedFrom (.lent 0) p count t i) :
    s.Took a chunk n p count i t := by
  have hkept : s.Kept (fun x y => x.state.Moved y.state) t :=
    ⟨s.alike_cleared.trans hfetched.through.kept.stream, hfetched.through.kept.source,
      hfetched.through.kept.events⟩
  refine ⟨⟨h.matched.kept hkept, hkept.stream.needsChecksum ▸ h.needsChecksum,
    h.uniform.moved hkept.source, hfetching.filled, hfetching.cursor, hfetched.next_eq⟩, hkept,
    hfetched.through.current, hfetching.spares.1, fun k hk => ?_⟩
  have hbyte : t.lent[0 + k]? = _ := hfetched.bytes k hk
  rw [Nat.zero_add] at hbyte
  exact hbyte

/-! ## A single read -/

/-- A read of a chunk or more goes past the empty window. -/
theorem ends_readOnce (h : Resting a chunk n p s) (hsize : chunk ≤ size) {offset : Nat}
    {Q : Option Nat → Session (Recorded Replicas) → Prop}
    {E : StreamError → Session (Recorded Replicas) → Prop}
    (hfetch : Ends (attempt Replicas.source.recorded
      (seekNested Replicas.source.recorded (s.stream.nesting + 1)) (.lent offset) size
      s.stream.attempts) s.cleared Q E) :
    Ends (readOnce Replicas.source.recorded offset size) s Q E := by
  have hmaxChunk := h.matched.maxChunk_eq
  simp only [readOnce, ends_bind, ends_getStream, ends_ite, ends_fetchLent, ends_fetchWith]
  exact ⟨fun _ => ⟨fun _ => hfetch, fun hsmall => absurd (hmaxChunk ▸ hsize) hsmall⟩,
    fun hsome => absurd h.available_eq hsome⟩

/-- A read into the whole of a part of the lent buffer is as many single reads as it takes. -/
theorem ends_read (hsize : 0 < size) (hlent : size ≤ s.lent.length)
    {Q : Option Nat → Session (Recorded Replicas) → Prop}
    {E : StreamError → Session (Recorded Replicas) → Prop}
    (hupTo : ∀ fuel, Ends (readUpTo Replicas.source.recorded (fuel + 1) 0 size) s
      (fun count t => Q (if count = 0 then none else some count) t) E) :
    Ends (Stream.read Replicas.source.recorded 0 size) s Q E := by
  have hread := hupTo (size - 1)
  rw [Nat.sub_add_cancel hsize] at hread
  simp only [Stream.read, ends_bind, ends_get, ends_ite, ends_pure, ends_throw]
  exact ⟨fun hrange => by omega, fun _ => ⟨fun hzero => by omega, fun _ => hread⟩⟩

/-! ## At the end of the data -/

/-- Nothing was read, and the stream rests where it was. -/
structure Idle (a : Algorithm) (chunk n p : Nat) (s t : Session (Recorded Replicas)) : Prop where
  resting : Resting a chunk n p t
  kept : s.Kept (fun x y => x.state.Moved y.state) t
  current : t.source.state.current = s.source.state.current
  lent : t.lent = s.lent

/-- What was read stays read. -/
theorem Idle.took {u : Session (Recorded Replicas)} {count i : Nat}
    (h : Idle a chunk n (p + count) t u) (ht : s.Took a chunk n p count i t) :
    s.Took a chunk n p count i u where
  resting := h.resting
  kept := ht.kept.trans Replicas.respects_moved.recorded h.kept
  current := h.current.trans ht.current
  length := by rw [h.lent, ht.length]
  bytes k hk := by rw [h.lent, ht.bytes k hk]

/-- Where the data has ended, there is nothing to fetch. -/
theorem ends_attempt_of_ended (h : Resting a chunk n p s) (hend : n ≤ p)
    (hattempts : 0 < s.stream.attempts) (reseek : Int → StreamM (Recorded Replicas) Unit)
    (target : Target) :
    Ends (attempt Replicas.source.recorded reseek target size s.stream.attempts) s.cleared
      (fun count t => count = none ∧ Idle a chunk n p s t) (fun _ _ => False) := by
  obtain ⟨left, hleft⟩ := Nat.exists_eq_add_of_lt hattempts
  rw [Nat.zero_add] at hleft
  have hsize := h.size_eq
  have hposition : (s.cleared.stream.ask size).position = p := h.next_eq
  have houtside : (s.cleared.stream.ask size).position < 0 ∨
      s.source.state.size ≤ (s.cleared.stream.ask size).position.toNat := by omega
  have hread : Replicas.read (s.cleared.stream.ask size) s.source.state =
      .ok (.ended 1) s.source.state := congrFun (if_pos houtside) s.source.state
  rw [hleft]
  refine ends_attempt_ended (Source.read_recorded_eq_ok.mpr ⟨_, hread, rfl⟩) ?_
  exact ⟨rfl, ⟨h.matched.moved s.alike_cleared (.refl _), h.needsChecksum, h.uniform, rfl, rfl,
    h.next_eq⟩, ⟨s.alike_cleared, .refl _, List.prefix_refl _⟩, rfl, rfl⟩

/-- Where the data has ended, a single read reads nothing, whether past the window or through it. -/
theorem ends_readOnce_of_ended (h : Resting a chunk n p s) (hend : n ≤ p)
    (hattempts : 0 < s.stream.attempts) (offset size : Nat) :
    Ends (readOnce Replicas.source.recorded offset size) s
      (fun count t => count = none ∧ Idle a chunk n p s t) (fun _ _ => False) := by
  have hfilled := h.filled
  simp only [readOnce, ends_bind, ends_getStream, ends_ite, ends_pure, ends_copy, ends_fetchLent,
    ends_fill, ends_fetchWith]
  rw [ends_refill_succ, ends_fetchWith]
  refine ⟨fun _ => ⟨fun _ => h.ends_attempt_of_ended hend hattempts _ _, fun _ =>
    ⟨fun hunused => absurd hunused (by omega), fun _ => ?_⟩⟩, fun hsome => absurd h.available_eq hsome⟩
  refine (h.ends_attempt_of_ended hend hattempts _ .window).mono (fun count t ht => ?_)
    (fun _ _ hfalse => hfalse)
  obtain ⟨rfl, ht⟩ := ht
  have hempty := ht.resting.filled
  refine ⟨fun _ => ⟨trivial, ?_⟩, fun hfilled => absurd rfl hfilled⟩
  exact ⟨⟨ht.resting.matched.alike .placed rfl, ht.resting.needsChecksum,
    ht.resting.uniform, rfl, ht.resting.cursor, ht.resting.next_eq⟩,
    ht.kept.of_alike .placed rfl rfl, ht.current, ht.lent⟩

theorem ends_readUpTo_of_ended (h : Resting a chunk n p s) (hend : n ≤ p)
    (hattempts : 0 < s.stream.attempts) (fuel offset size : Nat) :
    Ends (readUpTo Replicas.source.recorded fuel offset size) s
      (fun count t => count = 0 ∧ Idle a chunk n p s t) (fun _ _ => False) := by
  cases fuel with
  | zero => exact ⟨rfl, h, .refl Replicas.respects_moved.recorded s, rfl, rfl⟩
  | succ fuel =>
      simp only [readUpTo, ends_bind]
      refine (h.ends_readOnce_of_ended hend hattempts offset size).mono (fun count t ht => ?_)
        (fun _ _ hfalse => hfalse)
      obtain ⟨rfl, ht⟩ := ht
      exact ⟨rfl, ht⟩

/-- Where the data has ended, a read says so. -/
theorem ends_read_of_ended (h : Resting a chunk n p s) (hend : n ≤ p)
    (hattempts : 0 < s.stream.attempts) (hsize : 0 < size) (hroom : size ≤ s.lent.length) :
    Ends (Stream.read Replicas.source.recorded 0 size) s
      (fun count t => count = none ∧ Idle a chunk n p s t) (fun _ _ => False) := by
  refine ends_read hsize hroom fun fuel => ?_
  refine (h.ends_readUpTo_of_ended hend hattempts _ 0 size).mono (fun count t ht => ?_)
    (fun _ _ hfalse => hfalse)
  obtain ⟨rfl, ht⟩ := ht
  exact ⟨rfl, ht⟩

/-! ## Before the end of the data -/

section Whole

variable (hwhole : min (size / chunk) chunksPerRead * chunk = size) (hfits : size < Word.half)
include hwhole hfits

/-- A size of so many chunks is one that a fetch takes. -/
theorem sized (h : Resting a chunk n p s) (hsize : 0 < size) :
    chunk ≤ size ∧ size + chunk ≤ Word.count ∧
      Chunk.batch chunk size (n - p) = min size (n - p) := by
  have hhalf : Word.half + Word.half = Word.count := rfl
  have hlimit := h.matched.chunk_lt
  have hle : chunk ≤ size := by
    rw [← hwhole]
    refine Nat.le_mul_of_pos_left chunk (Nat.pos_of_ne_zero fun hzero => ?_)
    rw [hzero, Nat.zero_mul] at hwhole
    omega
  exact ⟨hle, by omega, by rw [Chunk.batch, hwhole]⟩

/-- With an intact replica left, a fetch brings a batch of the first one. -/
theorem ends_attempt_intact (h : Resting a chunk n p s) (haligned : p % chunk = 0)
    (hinside : p < n) (hsize : 0 < size) (hlent : size ≤ s.lent.length) {i : Nat}
    (hle : s.source.state.current ≤ i) (hlt : i < s.source.state.list.length)
    (hattempts : s.source.state.list.length ≤ s.stream.attempts)
    (hintact : s.source.state.Intact a p (min size (n - p)) i)
    (hbefore : ∀ j, s.source.state.current ≤ j → j < i →
      ¬ s.source.state.Intact a p (min size (n - p)) j) (nesting : Nat) :
    Ends (attempt Replicas.source.recorded (seekNested Replicas.source.recorded nesting) (.lent 0)
        size s.stream.attempts) s.cleared
      (fun count t => count = some (min size (n - p)) ∧ s.Took a chunk n p (min size (n - p)) i t)
      (fun _ _ => False) := by
  obtain ⟨hchunk, hword, hbatch⟩ := h.sized hwhole hfits hsize
  rw [← hbatch] at hintact hbefore ⊢
  have hbegun : Fetching (.lent 0) p p s.cleared s.cleared :=
    ⟨.refl Replicas.respects_grown _, rfl, rfl, h.next_eq, .refl _, .refl _ _⟩
  have hroom : Target.Room (.lent 0) size s.cleared := by
    show 0 + size ≤ s.lent.length
    omega
  have hlanded := hbegun.ends_attempt (h.matched.alike s.alike_cleared rfl) hword hroom hsize nesting
    s.stream.attempts
  have hlt : i < min s.cleared.source.state.list.length
      (s.cleared.source.state.current + s.stream.attempts) := by
    show i < min s.source.state.list.length (s.source.state.current + s.stream.attempts)
    omega
  have hfacing := h.facing haligned hinside
  refine (hlanded.and (hfacing.ends_attempt_intact hchunk hword hle hlt hintact hbefore)).mono
    (fun count t ht => ?_) (fun _ _ ht => ht.2)
  obtain ⟨hlanded, rfl, hfetched⟩ := ht
  cases hlanded with
  | bytes _ _ _ _ hfetching _ => exact ⟨rfl, h.took hfetching hfetched⟩

/-- With an intact replica left, a read gives a batch of the first one. -/
theorem ends_read_intact (h : Resting a chunk n p s) (haligned : p % chunk = 0) (hinside : p < n)
    (hsize : 0 < size) (hlent : size ≤ s.lent.length) {i : Nat}
    (hle : s.source.state.current ≤ i) (hlt : i < s.source.state.list.length)
    (hattempts : s.source.state.list.length ≤ s.stream.attempts)
    (hintact : s.source.state.Intact a p (min size (n - p)) i)
    (hbefore : ∀ j, s.source.state.current ≤ j → j < i →
      ¬ s.source.state.Intact a p (min size (n - p)) j) :
    Ends (Stream.read Replicas.source.recorded 0 size) s
      (fun count t => count = some (min size (n - p)) ∧
        s.Took a chunk n p (min size (n - p)) i t)
      (fun _ _ => False) := by
  obtain ⟨hchunk, -, -⟩ := h.sized hwhole hfits hsize
  have hfirst := h.ends_attempt_intact hwhole hfits haligned hinside hsize hlent hle hlt hattempts
    hintact hbefore (s.stream.nesting + 1)
  refine ends_read hsize hlent fun fuel => ?_
  simp only [readUpTo, ends_bind]
  refine (h.ends_readOnce hchunk hfirst).mono (fun count t ht => ?_) (fun _ _ hfalse => hfalse)
  obtain ⟨rfl, ht⟩ := ht
  simp only [ends_ite, ends_bind, ends_pure]
  refine ⟨fun _ => ⟨if_neg (by omega), ht⟩, fun hmore => ?_⟩
  -- A short batch is the last one, so there is nothing more to read.
  have hattempts := ht.kept.stream.attempts
  refine (ht.resting.ends_readUpTo_of_ended (by omega) (by omega) _ _ _).mono
    (fun more u hu => ?_) (fun _ _ hfalse => hfalse)
  obtain ⟨rfl, hu⟩ := hu
  exact ⟨if_neg (by omega), hu.took ht⟩

/-- Without an intact replica left, a read fails. -/
theorem ends_read_damaged (h : Resting a chunk n p s) (haligned : p % chunk = 0) (hinside : p < n)
    (hsize : 0 < size) (hlent : size ≤ s.lent.length)
    (hattempts : s.source.state.list.length ≤ s.stream.attempts)
    (hdamaged : ∀ j, s.source.state.current ≤ j → j < s.source.state.list.length →
      ¬ s.source.state.Intact a p (min size (n - p)) j) :
    Ends (Stream.read Replicas.source.recorded 0 size) s (fun _ _ => False) (fun _ _ => True) := by
  obtain ⟨hchunk, hword, hbatch⟩ := h.sized hwhole hfits hsize
  rw [← hbatch] at hdamaged
  have hcurrent := h.matched.inOrder.current_lt
  have hlast : s.source.state.list.length - 1 + 1 = s.cleared.source.state.current +
      min s.stream.attempts
        (s.cleared.source.state.list.length - s.cleared.source.state.current) := by
    show s.source.state.list.length - 1 + 1 = s.source.state.current +
      min s.stream.attempts (s.source.state.list.length - s.source.state.current)
    omega
  refine ends_read hsize hlent fun fuel => ?_
  simp only [readUpTo, ends_bind]
  refine h.ends_readOnce hchunk ?_
  refine ((h.facing haligned hinside).ends_attempt_damaged hchunk hword (by omega) hlast
    fun j hle hlast => ?_).mono (fun _ _ hfalse => hfalse.elim) (fun _ _ _ => trivial)
  exact hdamaged j hle (by omega)

end Whole

end Stream.Resting

end ChunkGuard
