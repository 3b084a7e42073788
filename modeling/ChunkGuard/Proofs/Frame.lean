import ChunkGuard.Proofs.Compound

/-!
# What no operation changes

Whatever a stream does, some of it stays as it was built: its limits, its name, its algorithm, the
room for checksums and the running checksum, which is fresh between operations (`Stream.Alike`).
What the source does on the way is a chain of answers, so the source's state is related by any
relation that every single answer respects (`Source.Respects`). `Operation.kept_perform` says both
of every operation, through all nested failovers and whether it fails or not.
-/

namespace ChunkGuard

open Session

variable {σ : Type}

/-! ## Streams that differ in their window and position only -/

/-- The second stream is built like the first one. -/
structure Stream.Alike (s t : Stream) : Prop where
  verify : t.verify = s.verify
  maxChunk : t.maxChunk = s.maxChunk
  attempts : t.attempts = s.attempts
  name : t.name = s.name
  checksum : t.checksum = s.checksum
  room : t.sums.length = s.sums.length
  nesting : t.nesting = s.nesting

namespace Stream.Alike

variable {s t u : Stream}

theorem refl (s : Stream) : s.Alike s := ⟨rfl, rfl, rfl, rfl, rfl, rfl, rfl⟩

/-- Where a stream is and what is in its window doesn't matter. -/
theorem placed {s : Stream} {window : Bytes} {cursor filled : Nat} {next : Int} :
    s.Alike { s with window, cursor, filled, next } := ⟨rfl, rfl, rfl, rfl, rfl, rfl, rfl⟩

theorem trans (h : s.Alike t) (h' : t.Alike u) : s.Alike u where
  verify := h'.verify.trans h.verify
  maxChunk := h'.maxChunk.trans h.maxChunk
  attempts := h'.attempts.trans h.attempts
  name := h'.name.trans h.name
  checksum := h'.checksum.trans h.checksum
  room := h'.room.trans h.room
  nesting := h'.nesting.trans h.nesting

/-- A stream that is alike is ready as well. -/
theorem ready (h : s.Alike t) (hs : s.Ready) : t.Ready := by
  rw [Ready, h.checksum]
  exact hs

/-- Checksums are asked for as before. -/
theorem needsChecksum (h : s.Alike t) : t.needsChecksum = s.needsChecksum := by
  simp only [Stream.needsChecksum, h.verify, h.checksum]

/-- A stream that is alike asks for as many checksums. -/
theorem capacity (h : s.Alike t) : t.capacity = s.capacity := by
  rw [Stream.capacity, Stream.capacity, h.needsChecksum, h.room]

/-- A stream that keeps other checksums is alike. -/
theorem keeping (sums : Bytes) : s.Alike (s.keeping sums) :=
  ⟨rfl, rfl, rfl, rfl, rfl, length_sums_keeping, rfl⟩

/-- A stream is alike after data has come to it. -/
theorem received (target : Target) (data sums : Bytes) (x : σ) (s : Session σ) :
    s.stream.Alike (s.received target data sums x).stream := by
  cases target <;> exact .trans .placed (.keeping sums)

end Stream.Alike

/-- A stream with its window emptied is alike. -/
theorem Session.alike_cleared (s : Session σ) : s.stream.Alike s.cleared.stream := .placed

/-- A stream at another place with its checksum reset is alike. -/
theorem Session.alike_jumped (s : Session σ) (hs : s.stream.Ready) (next : Int) :
    s.stream.Alike (s.jumped next).stream :=
  ⟨rfl, rfl, rfl, rfl, hs.map_reset, rfl, rfl⟩

/-! ## What the source may do -/

/-- Every answer of the source takes its state along the relation. -/
structure Source.Respects (source : Source σ) (S : σ → σ → Prop) : Prop where
  refl : ∀ x, S x x
  trans : ∀ {x y z}, S x y → S y z → S x z
  read : ∀ request x, Ends (source.read request) x (fun _ y => S x y) (fun _ y => S x y)
  switch : ∀ position x, S x (source.switch position x).2

/-- The stream is built as it was, the source went from its old state to its new one, and the log only
grew. -/
structure Session.Kept (S : σ → σ → Prop) (s t : Session σ) : Prop where
  stream : s.stream.Alike t.stream
  source : S s.source t.source
  events : s.events <+: t.events

namespace Session.Kept

variable {S : σ → σ → Prop} {source : Source σ} {s t u : Session σ}

theorem refl (hS : source.Respects S) (s : Session σ) : Kept S s s :=
  ⟨.refl _, hS.refl _, List.prefix_refl _⟩

theorem trans (hS : source.Respects S) (h : Kept S s t) (h' : Kept S t u) : Kept S s u :=
  ⟨h.stream.trans h'.stream, hS.trans h.source h'.source, h.events.trans h'.events⟩

/-- Telling the log keeps the session. -/
theorem told (h : Kept S s t) (events : List Log.Event) : Kept S s (t.told events) :=
  ⟨h.stream, h.source, h.events.trans (List.prefix_append _ _)⟩

/-- Looking for another copy does what answers do. -/
theorem switched (hS : source.Respects S) (h : Kept S s t) (position : Int) :
    Kept S s (t.switched source position) :=
  ⟨h.stream, hS.trans h.source (hS.switch position t.source),
    h.events.trans (List.prefix_append _ _)⟩

/-- Data that comes is an answer. -/
theorem received (hS : source.Respects S) (h : Kept S s t) {target : Stream.Target} {size : Nat}
    {data sums : Bytes} {x : σ}
    (hread : source.read (t.stream.ask size) t.source = .ok (.chunk data sums) x) :
    Kept S s (t.received target data sums x) := by
  refine ⟨h.stream.trans (.received target data sums x t), ?_, ?_⟩
  · rw [Stream.source_received]
    exact hS.trans h.source ((hS.read (t.stream.ask size) t.source).ok hread)
  · cases target <;> exact h.events

/-- Only how the stream is built, its source and the log matter. -/
theorem of_alike (h : Kept S s t) (hstream : t.stream.Alike u.stream) (hsource : u.source = t.source)
    (hevents : u.events = t.events) : Kept S s u :=
  ⟨h.stream.trans hstream, hsource ▸ h.source, hevents ▸ h.events⟩

end Session.Kept

/-! ## Fetching, seeking and reading -/

namespace Stream

variable {S : σ → σ → Prop} {source : Source σ} {o s : Session σ}

/-- An attempt leaves the stream built as it was, and the source where its reply left it. -/
theorem Tried.kept (hS : source.Respects S) (ho : Kept S o s) {target : Target} {size : Nat}
    {r : Except StreamError Attempt} {t : Session σ} (h : Tried source target size s r t) :
    Kept S o t := by
  have hread := hS.read (s.stream.ask size) s.source
  cases h with
  | refused e x hreply => exact ⟨ho.stream, hS.trans ho.source (hread.error hreply), ho.events⟩
  | ended code x hreply => exact ⟨ho.stream, hS.trans ho.source (hread.ok hreply), ho.events⟩
  | empty sums x hreply => exact ho.received hS hreply
  | crowded data sums x hreply => exact ho.received hS hreply
  | passed data sums x hreply =>
      have hkept : Kept S o (s.received target data sums x) := ho.received hS hreply
      exact hkept.of_alike .placed rfl rfl
  | damaged data sums x mismatch hreply => exact ho.received hS hreply

/-- The attempts keep what the seek between them keeps. -/
theorem keeps_attempt (hS : source.Respects S) (ho : o.stream.Ready)
    {reseek : Int → StreamM σ Unit} (hreseek : ∀ position, Keeps (Kept S o) (reseek position))
    (target : Target) (size left : Nat) :
    Keeps (Kept S o) (attempt source reseek target size left) := by
  induction left with
  | zero => exact keeps_throw _
  | succ left ih =>
      intro s h
      refine ends_attempt_succ (h.stream.ready ho) (fun t ht => ht.kept hS h)
        (fun count t ht => ht.kept hS h) (fun e t ht => ht.kept hS h) ?last ?alone ?retried
      case last =>
        intro _ data mismatch t ht
        exact (ht.kept hS h).told _
      case alone =>
        intro _ data mismatch t ht _
        exact ((ht.kept hS h).told _).switched hS _
      case retried =>
        intro _ data mismatch t ht _
        -- The seek is begun in a session that is still kept, and so is the next attempt.
        have hu := (((ht.kept hS h).told [s.stream.corruption data]).switched hS s.stream.next).told
          [.switched s.stream.name s.stream.next left]
        exact (hreseek _ _ hu).mono (fun _ v hv => ih v hv) (fun _ _ hv => hv)

/-- A fetch keeps what its seeks keep. -/
theorem keeps_fetchWith (hS : source.Respects S) (ho : o.stream.Ready)
    {reseek : Int → StreamM σ Unit} (hreseek : ∀ position, Keeps (Kept S o) (reseek position))
    (target : Target) (size : Nat) :
    Keeps (Kept S o) (fetchWith source reseek target size) := by
  intro s h
  rw [ends_fetchWith]
  exact keeps_attempt hS ho hreseek target size _ _
    (h.of_alike s.alike_cleared rfl rfl)

/-- A seek keeps what filling the window keeps. -/
theorem keeps_seekWith (ho : o.stream.Ready) {fill : StreamM σ Unit}
    (hfill : Keeps (Kept S o) fill) (position : Int) :
    Keeps (Kept S o) (seekWith source fill position) := by
  intro s h
  have hjump : ∀ next, Kept S o (s.jumped next) := fun next =>
    h.of_alike (s.alike_jumped (h.stream.ready ho) next) rfl rfl
  rw [ends_seekWith]
  refine ⟨fun _ => h, fun _ => ⟨fun _ => ?_, fun _ => ⟨fun _ => hjump _, fun _ => ?_⟩⟩⟩
  · exact h.of_alike .placed rfl rfl
  · exact keeps_discardWith_of_turns hfill (fun _ _ ht =>
      ht.of_alike .placed rfl rfl) _ _ _ (hjump _)

/-- Filling the window keeps it, however deep fetches and seeks are nested. -/
theorem keeps_refill (hS : source.Respects S) (ho : o.stream.Ready) (nesting : Nat) :
    Keeps (Kept S o) (refill source nesting) := by
  induction nesting with
  | zero => exact keeps_throw _
  | succ nesting ih =>
      intro s h
      have hseek : ∀ position, Keeps (Kept S o) (seekNested source nesting position) :=
        keeps_seekWith ho ih
      rw [ends_refill_succ]
      refine ⟨fun _ => h, fun _ => ?_⟩
      refine (keeps_fetchWith hS ho hseek _ _ s h).mono (fun count t ht => ?_) (fun _ _ ht => ht)
      exact ht.of_alike .placed rfl rfl

/-- The seeks that fetches make keep it. -/
theorem keeps_seekNested (hS : source.Respects S) (ho : o.stream.Ready) (nesting : Nat)
    (position : Int) : Keeps (Kept S o) (seekNested source nesting position) :=
  keeps_seekWith ho (keeps_refill hS ho nesting) position

theorem keeps_fill (hS : source.Respects S) (ho : o.stream.Ready) :
    Keeps (Kept S o) (fill source) := by
  intro s h
  rw [ends_fill]
  exact keeps_refill hS ho _ s h

theorem keeps_readByte (hS : source.Respects S) (ho : o.stream.Ready) :
    Keeps (Kept S o) (readByte source) := by
  have hrest : ∀ t, Kept S o t → (t.stream.filled ≤ t.stream.cursor → Kept S o t) ∧
      (¬ t.stream.filled ≤ t.stream.cursor →
        Kept S o { t with stream := { t.stream with cursor := t.stream.cursor + 1 } }) :=
    fun t ht => ⟨fun _ => ht, fun _ =>
      ht.of_alike .placed rfl rfl⟩
  intro s h
  simp only [readByte, ends_bind, ends_getStream, ends_ite, ends_pure, ends_modifyStream]
  refine ⟨fun _ => ?_, fun _ => hrest s h⟩
  exact (keeps_fill hS ho s h).mono (fun _ t ht => hrest t ht) (fun _ _ ht => ht)

/-- A single read is a fetch and a copy at most. -/
theorem keeps_readOnce (hS : source.Respects S) (ho : o.stream.Ready) (offset size : Nat) :
    Keeps (Kept S o) (readOnce source offset size) := by
  have hcopy : ∀ t size, Kept S o t →
      Ends (Stream.copy offset size) t (fun _ => Kept S o) (fun _ => Kept S o) := fun t size ht =>
    ht.of_alike .placed rfl rfl
  intro s h
  simp only [readOnce, ends_bind, ends_getStream, ends_ite, ends_pure, ends_fetchLent]
  refine ⟨fun _ => ⟨fun _ => ?_, fun _ => ?_⟩, fun _ => hcopy s _ h⟩
  · exact keeps_fetchWith hS ho (keeps_seekNested hS ho _) _ _ s h
  · refine (keeps_fill hS ho s h).mono (fun _ t ht => ⟨fun _ => ht, fun _ => ?_⟩) (fun _ _ ht => ht)
    exact hcopy t _ ht

theorem keeps_read (hS : source.Respects S) (ho : o.stream.Ready) (offset size : Nat) :
    Keeps (Kept S o) (Stream.read source offset size) := by
  intro s h
  simp only [Stream.read, ends_bind, ends_get, ends_ite, ends_pure, ends_throw]
  refine ⟨fun _ => h, fun _ => ⟨fun _ => h, fun _ => ?_⟩⟩
  exact keeps_readUpTo_of_turns (keeps_readOnce hS ho) size offset size s h

end Stream

/-- An operation other than turning verification on or off leaves the stream built as it was, and
moves the source by answers only. -/
theorem Operation.kept_perform {S : σ → σ → Prop} {source : Source σ} (hS : source.Respects S)
    {s : Session σ} (hs : s.stream.Ready) {operation : Operation}
    (hoperation : ∀ verify, operation ≠ .setVerify verify) :
    Ends (operation.perform source) s (fun _ t => Kept S s t) (fun _ t => Kept S s t) :=
  Operation.keeps_perform (Stream.keeps_readByte hS hs) (Stream.keeps_read hS hs)
    (Stream.keeps_seek fun _ => Stream.keeps_seekNested hS hs _) (fun position _ h => h.switched hS position)
    operation (fun _ _ _ h => h.of_alike (.refl _) rfl rfl)
    (fun verify h => absurd h (hoperation verify)) s (.refl hS s)

end ChunkGuard
