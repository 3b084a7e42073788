import ChunkGuard.Proofs.Runs
import ChunkGuard.Proofs.Straying

/-!
# Invariants of the window

What holds of the window is a matter of four steps: handing bytes out of it, leaving it for another
position, fetching, and looking for another copy. If these keep a property of sessions, unless there
was a warning that stays, then so does every operation (`Session.WindowInvariant.keeps`).
-/

namespace ChunkGuard

open Session

variable {σ : Type} {source : Source σ} {S : σ → σ → Prop} {W P : Session σ → Prop}
  {s t : Session σ}

/-- `P` is kept by what is done to the window, unless there was a warning `W`. -/
structure Session.WindowInvariant (source : Source σ) (S : σ → σ → Prop) (W P : Session σ → Prop) :
    Prop where
  respects : source.Respects S
  lasting : ∀ {s t}, W s → s.events <+: t.events → S s.source t.source → W t
  cursor_le : ∀ {s}, P s → s.stream.cursor ≤ s.stream.filled
  /-- Bytes are handed out. -/
  altered : ∀ {s}, P s → ∀ (cursor : Nat) (verify : Bool) (lent : Bytes),
    cursor ≤ s.stream.filled →
      P { s with stream := { s.stream with cursor, verify }, lent }
  switched : ∀ {s}, P s → ∀ position, P (s.switched source position)
  /-- The stream goes elsewhere. -/
  jumped : ∀ {s}, P s → ∀ position, 0 ≤ position →
    P (s.jumped (source.start s.source position))
  /-- A fetch leaves nothing handed out. What it got may become the window if it was put there. -/
  fetched : ∀ {s}, s.stream.Ready → P s → ∀ nesting target size,
    Ends (Stream.fetchWith source (Stream.seekNested source nesting) target size) s
      (fun count t => W t ∨ P t ∧ t.stream.cursor = 0 ∧
        (target = .window → size = s.stream.maxChunk →
          P { t with stream := { t.stream with filled := count.getD 0 } }))
      (fun _ t => W t ∨ P t)

/-- The stream is ready, and `P` holds unless there was a warning `W`. -/
structure Session.Unless (W P : Session σ → Prop) (s : Session σ) : Prop where
  ready : s.stream.Ready
  holds : ¬ W s → P s

namespace Session.WindowInvariant

variable (h : WindowInvariant source S W P)
include h

/-- There was no warning before where there is none now. -/
theorem not_before (hW : ¬ W t) (hst : s.events <+: t.events) (hS : S s.source t.source) : ¬ W s :=
  fun hs => hW (h.lasting hs hst hS)

/-- Where the window and the cursor are doesn't matter for a warning. -/
theorem not_unchanged (hW : ¬ W t) (hsource : t.source = s.source) (hevents : t.events = s.events) :
    ¬ W s :=
  h.not_before hW (hevents ▸ List.prefix_refl _) (hsource ▸ h.respects.refl _)

/-- The cursor may go anywhere in the window. -/
theorem altered_unless (hs : s.Unless W P) {cursor : Nat} (verify : Bool) (lent : Bytes)
    (hcursor : ¬ W s → P s → cursor ≤ s.stream.filled) :
    Unless W P { s with stream := { s.stream with cursor, verify }, lent } where
  ready := hs.ready
  holds hW := by
    have hW : ¬ W s := h.not_unchanged hW rfl rfl
    exact h.altered (hs.holds hW) cursor verify lent (hcursor hW (hs.holds hW))

/-- Moving the cursor in the window is such a change. -/
theorem moved (hs : s.Unless W P) {cursor : Nat}
    (hcursor : ¬ W s → P s → cursor ≤ s.stream.filled) :
    Unless W P { s with stream := { s.stream with cursor } } :=
  h.altered_unless hs s.stream.verify s.lent hcursor

/-- A copy out of the window is such a change. -/
theorem copied (hs : s.Unless W P) (offset : Nat) {n : Nat}
    (hn : ¬ W s → P s → s.stream.cursor + n ≤ s.stream.filled) :
    Unless W P
      { s with
        lent := Bytes.write offset (Bytes.padded s.stream.cursor n s.stream.window) s.lent
        stream := { s.stream with cursor := s.stream.cursor + n } } :=
  h.altered_unless hs s.stream.verify _ hn

/-! ## Fetching -/

/-- A fetch leaves the window empty, and one into the window leaves what may be put there. -/
theorem ends_fetchWith (hs : s.Unless W P) (nesting : Nat) (target : Stream.Target) (size : Nat) :
    Ends (Stream.fetchWith source (Stream.seekNested source nesting) target size) s
      (fun count t => t.Unless W P ∧ (¬ W t → t.stream.cursor = 0 ∧
        (target = .window → size = s.stream.maxChunk →
          P { t with stream := { t.stream with filled := count.getD 0 } })))
      (fun _ t => t.Unless W P) := by
  have hfetch := Stream.keeps_fetchWith h.respects hs.ready
    (fun position => Stream.keeps_seekNested h.respects hs.ready nesting position) target size s
    (.refl h.respects s)
  by_cases hW : W s
  · refine hfetch.mono (fun _ t ht => ?_) (fun _ t ht => ?_)
    · have hW := h.lasting hW ht.events ht.source
      exact ⟨⟨ht.stream.ready hs.ready, (absurd hW ·)⟩, (absurd hW ·)⟩
    · exact ⟨ht.stream.ready hs.ready, (absurd (h.lasting hW ht.events ht.source) ·)⟩
  · refine (hfetch.and (h.fetched hs.ready (hs.holds hW) nesting target size)).mono
      (fun _ t ht => ?_) (fun _ t ht => ⟨ht.1.stream.ready hs.ready, ht.2.resolve_left⟩)
    exact ⟨⟨ht.1.stream.ready hs.ready, fun hW => (ht.2.resolve_left hW).1⟩,
      fun hW => (ht.2.resolve_left hW).2⟩

/-- Filling the window leaves nothing of it handed out. -/
theorem ends_refill (hs : s.Unless W P) (nesting : Nat) :
    Ends (Stream.refill source nesting) s
      (fun _ t => t.Unless W P ∧ (¬ W t → t.stream.cursor = 0)) (fun _ t => t.Unless W P) := by
  cases nesting with
  | zero => exact hs
  | succ nesting =>
      rw [Stream.ends_refill_succ]
      refine ⟨fun _ => hs, fun _ => (h.ends_fetchWith hs nesting _ _).mono
        (fun count t ht => ?_) (fun _ _ ht => ht)⟩
      refine ⟨⟨ht.1.ready, fun hW => ?_⟩, fun hW => ?_⟩
      · exact (ht.2 (h.not_unchanged hW rfl rfl)).2 rfl rfl
      · exact (ht.2 (h.not_unchanged hW rfl rfl)).1

/-- Discarding bytes only moves the cursor and refills the window. -/
theorem keeps_discardWith (nesting fuel : Nat) (size : Int) :
    Keeps (Unless W P) (Stream.discardWith (Stream.refill source nesting) fuel size) :=
  Stream.keeps_discardWith_of_turns
    (fun _ hs => (h.ends_refill hs nesting).mono (fun _ _ ht => ht.1) (fun _ _ ht => ht))
    (fun size t ht => h.moved ht fun _ _ => t.cursor_discarded_le size) fuel size

/-- A seek begins with an empty window at the start of a chunk. -/
theorem keeps_seekNested (nesting : Nat) (position : Int) :
    Keeps (Unless W P) (Stream.seekNested source nesting position) := by
  intro s hs
  rw [Stream.seekNested, Stream.ends_seekWith]
  refine ⟨fun _ => hs, fun hposition => ⟨fun hinside => h.moved hs fun _ _ => by omega, fun _ => ?_⟩⟩
  have hjump : Unless W P (s.jumped (source.start s.source position)) :=
    ⟨(s.alike_jumped hs.ready _).ready hs.ready, fun hW =>
      h.jumped (hs.holds (h.not_unchanged hW rfl rfl)) position (Int.not_lt.mp hposition)⟩
  exact ⟨fun _ => hjump, fun _ => h.keeps_discardWith _ _ _ _ hjump⟩

/-! ## Reading -/

theorem keeps_readByte : Keeps (Unless W P) (Stream.readByte source) := by
  have hrest : ∀ t : Session σ, t.Unless W P → ¬ t.stream.filled ≤ t.stream.cursor →
      Unless W P { t with stream := { t.stream with cursor := t.stream.cursor + 1 } } :=
    fun t ht hunused => h.moved ht fun _ _ => by omega
  intro s hs
  simp only [Stream.readByte, ends_bind, ends_getStream, ends_ite, ends_pure, ends_modifyStream,
    Stream.ends_fill]
  refine ⟨fun _ => ?_, fun _ => ⟨fun _ => hs, hrest s hs⟩⟩
  exact (h.ends_refill hs _).mono (fun _ t ht => ⟨fun _ => ht.1, hrest t ht.1⟩) (fun _ _ ht => ht)

/-- A single read moves the cursor by what was copied. -/
theorem keeps_readOnce (offset size : Nat) :
    Keeps (Unless W P) (Stream.readOnce source offset size) := by
  intro s hs
  simp only [Stream.readOnce, ends_bind, ends_getStream, ends_ite, ends_pure, Stream.ends_copy,
    Stream.ends_fill, Stream.ends_fetchLent]
  refine ⟨fun _ => ⟨fun _ => ?past, fun _ => ?through⟩, fun _ => ?window⟩
  case past => exact (h.ends_fetchWith hs _ _ _).mono (fun _ _ ht => ht.1) (fun _ _ ht => ht)
  case through =>
    refine (h.ends_refill hs _).mono (fun _ t ht => ⟨fun _ => ht.1, fun _ => ?_⟩) (fun _ _ ht => ht)
    refine h.copied ht.1 offset fun hW _ => ?_
    have hcursor := ht.2 hW
    omega
  case window =>
    refine h.copied hs offset fun _ hP => ?_
    have hcursor := h.cursor_le hP
    have havailable := Nat.mod_le (s.stream.filled - s.stream.cursor) Word.count
    rw [Stream.available_eq_mod hcursor]
    omega

theorem keeps_read (offset size : Nat) : Keeps (Unless W P) (Stream.read source offset size) := by
  intro s hs
  simp only [Stream.read, ends_bind, ends_get, ends_ite, ends_pure, ends_throw]
  exact ⟨fun _ => hs, fun _ => ⟨fun _ => hs, fun _ =>
    Stream.keeps_readUpTo_of_turns h.keeps_readOnce _ _ _ s hs⟩⟩

/-- Every operation keeps what the steps keep. -/
theorem keeps (operation : Operation) : Keeps (Unless W P) (operation.perform source) := by
  refine Operation.keeps_perform h.keeps_readByte h.keeps_read
    (Stream.keeps_seek fun _ => h.keeps_seekNested _) (fun position s hs => ?switch) operation
    (fun buffer _ s hs => h.altered_unless hs s.stream.verify buffer fun _ => h.cursor_le)
    (fun verify _ s hs => h.altered_unless hs verify s.lent fun _ => h.cursor_le)
  case switch =>
    refine ⟨hs.ready, fun hW => h.switched (hs.holds ?_) position⟩
    exact h.not_before hW (List.prefix_append _ _) (h.respects.switch position s.source)

end Session.WindowInvariant

end ChunkGuard
