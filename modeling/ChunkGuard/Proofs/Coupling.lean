import ChunkGuard.Proofs.Frame
import ChunkGuard.Stream.Operation

/-!
# Coupled computations

Two computations are coupled by a relation between their states if, begun in related states, they end
alike and leave related states (`Coupled`). Two sources are coupled if they answer alike in states that
go together (`Source.Couples`). Then so are all operations of streams on them, with comparisons that are
coupled too (`Operation.coupled_perform`).
-/

namespace ChunkGuard

open Session

variable {ε σ τ α β : Type}

/-- Begun in related states, the two computations end alike, in related states. -/
def Coupled (R : σ → τ → Prop) (m : EStateM ε σ α) (m' : EStateM ε τ α) : Prop :=
  ∀ s s', R s s' → Ends m s (fun a t => ∃ t', m' s' = .ok a t' ∧ R t t')
    (fun e t => ∃ t', m' s' = .error e t' ∧ R t t')

section Rules

variable {R : σ → τ → Prop} {m n : EStateM ε σ α} {m' n' : EStateM ε τ α}

/-- A result is given alike. -/
theorem coupled_pure (a : α) : Coupled R (pure a : EStateM ε σ α) (pure a) :=
  fun _ s' h => ⟨s', rfl, h⟩

/-- An error is raised alike. -/
theorem coupled_throw (e : ε) : Coupled R (throw e : EStateM ε σ α) (throw e) :=
  fun _ s' h => ⟨s', rfl, h⟩

/-- Coupled computations may be followed by coupled ones. -/
theorem Coupled.bind {k : α → EStateM ε σ β} {k' : α → EStateM ε τ β} (h : Coupled R m m')
    (hk : ∀ a, Coupled R (k a) (k' a)) : Coupled R (m >>= k) (m' >>= k') := by
  intro s s' hs
  rw [ends_bind]
  refine (h s s' hs).mono ?_ ?_
  · rintro a t ⟨t', hm', ht⟩
    simp only [Bind.bind, EStateM.bind, hm']
    exact hk a t t' ht
  · rintro e t ⟨t', hm', ht⟩
    exact ⟨t', by simp only [Bind.bind, EStateM.bind, hm'], ht⟩

/-- After looking at the states, the computations may go on with one each. -/
theorem coupled_get_bind {k : σ → EStateM ε σ α} {k' : τ → EStateM ε τ α}
    (h : ∀ s s', R s s' → Coupled R (k s) (k' s')) : Coupled R (get >>= k) (get >>= k') :=
  fun s s' hs => h s s' hs s s' hs

/-- The same choice between coupled computations. -/
theorem Coupled.ite {c : Prop} [Decidable c] (h : Coupled R m m') (hn : Coupled R n n') :
    Coupled R (if c then m else n) (if c then m' else n') := by
  split
  · exact h
  · exact hn

/-- A check in front of both computations. -/
theorem Coupled.checked {c : Prop} [Decidable c] {e : ε} {k : PUnit → EStateM ε σ α}
    {k' : PUnit → EStateM ε τ α} (h : Coupled R (k ⟨⟩) (k' ⟨⟩)) :
    Coupled R (if c then throw e >>= k else k ⟨⟩) (if c then throw e >>= k' else k' ⟨⟩) :=
  .ite (fun _ s' hs => ⟨s', rfl, hs⟩) h

/-- A computation that succeeds leaves nothing to be handled. -/
theorem tryCatch_of_ok {handle : ε → EStateM ε σ α} {s t : σ} {a : α} (h : m s = .ok a t) :
    tryCatch m handle s = .ok a t := by
  simp only [tryCatch, tryCatchThe, MonadExceptOf.tryCatch]
  delta EStateM.tryCatch
  simp only [h]

/-- An error is handled from the state that it was raised in. -/
theorem tryCatch_of_error {handle : ε → EStateM ε σ α} {s t : σ} {e : ε} (h : m s = .error e t) :
    tryCatch m handle s = handle e t := by
  simp only [tryCatch, tryCatchThe, MonadExceptOf.tryCatch]
  delta EStateM.tryCatch
  simp only [h]
  rfl

/-- Errors of coupled computations may be handled by coupled ones. -/
theorem Coupled.tryCatch {handle : ε → EStateM ε σ α} {handle' : ε → EStateM ε τ α}
    (h : Coupled R m m') (hhandle : ∀ e, Coupled R (handle e) (handle' e)) :
    Coupled R (tryCatch m handle) (tryCatch m' handle') := by
  intro s s' hs
  rw [ends_tryCatch]
  refine (h s s' hs).mono ?_ ?_
  · rintro a t ⟨t', hm', ht⟩
    exact ⟨t', tryCatch_of_ok hm', ht⟩
  · rintro e t ⟨t', hm', ht⟩
    simp only [tryCatch_of_error hm']
    exact hhandle e t t' ht

/-- What is done to parts that go together is done to the wholes. Which parts go together may depend on
the whole. -/
theorem coupled_focus {σ' τ' : Type} {M : σ → σ' → τ' → Prop} {part : σ → σ'}
    {update : σ' → σ → σ} {part' : τ → τ'} {update' : τ' → τ → τ} {n : EStateM ε σ' α}
    {n' : EStateM ε τ' α} (h : ∀ s t, R s t → Coupled (M s) n n')
    (hpart : ∀ {s t}, R s t → M s (part s) (part' t))
    (hupdate : ∀ {s t x y}, R s t → M s x y → R (update x s) (update' y t)) :
    Coupled R (focus part update n) (focus part' update' n') := by
  intro s t hst
  rw [ends_focus]
  refine (h s t hst _ _ (hpart hst)).mono ?_ ?_
  all_goals
    rintro _ x ⟨y, hn', hxy⟩
    exact ⟨_, by simp only [focus, hn'], hupdate hst hxy⟩

end Rules

/-! ## Positioned and complete reads -/

namespace Seekable

variable {R : σ → τ → Prop} {s : Seekable σ} {s' : Seekable τ}

/-- A read in parts is coupled where the reads of the parts are. -/
theorem coupled_readParts {part : Nat → Nat → Nat → EStateM StreamError σ Int}
    {part' : Nat → Nat → Nat → EStateM StreamError τ Int}
    (h : ∀ done offset size, Coupled R (part done offset size) (part' done offset size))
    (fuel done offset size : Nat) :
    Coupled R (readParts part fuel done offset size) (readParts part' fuel done offset size) := by
  induction fuel generalizing done offset size with
  | zero => exact coupled_pure _
  | succ fuel ih =>
      rw [readParts, readParts]
      exact .ite (coupled_pure _) ((h done offset size).bind fun _ => .checked (ih _ _ _))

/-- What is done at a position and on the way back is coupled where seeks and reads are. -/
theorem coupled_readAt (hposition : ∀ t t', R t t' → s'.position t' = s.position t)
    (hbuffer : ∀ t t', R t t' → s'.buffer t' = s.buffer t)
    (hseek : ∀ position, Coupled R (s.seek position) (s'.seek position))
    (hread : ∀ offset size, Coupled R (s.read offset size) (s'.read offset size))
    (position : Int) (offset size : Nat) :
    Coupled R (s.readAt position offset size) (s'.readAt position offset size) := by
  refine coupled_get_bind fun t t' ht => ?_
  rw [hposition t t' ht, hbuffer t t' ht]
  have hvisit := (hseek position).bind fun _ => hread offset size
  have hback := hseek (s.position t)
  exact .checked (.ite (coupled_pure _) ((hvisit.tryCatch fun e =>
    hback.bind fun _ => coupled_throw e).bind fun _ => hback.bind fun _ => coupled_pure _))

end Seekable

/-! ## Sessions -/

/-- The two sources answer alike in states that go together, and the answers leave such states. Which
states go together may depend on the stream, but not on what a stream does between its operations. -/
structure Source.Couples (C : Stream → σ → τ → Prop) (source : Source σ) (source' : Source τ) :
    Prop where
  alike : ∀ {stream stream' x y}, C stream x y → stream.Alike stream' → C stream' x y
  reset : ∀ {stream x y}, C stream x y →
    C { stream with checksum := stream.checksum.map Checksum.reset } x y
  verifying : ∀ {stream x y}, C stream x y → ∀ verify, C { stream with verify } x y
  read : ∀ stream request, Coupled (C stream) (source.read request) (source'.read request)
  start : ∀ {stream x y}, C stream x y → source'.start y = source.start x
  switch : ∀ {stream x y}, C stream x y → ∀ position, ∃ y',
    source'.switch position y = ((source.switch position x).1, y') ∧
      C stream (source.switch position x).2 y'

namespace Session

/-- The session with another source. -/
def withSource (y : τ) (s : Session σ) : Session τ :=
  { stream := s.stream, source := y, lent := s.lent, events := s.events }

/-- The second session is the first one with another source, in a state that goes with the first
one's. -/
def Paired (C : Stream → σ → τ → Prop) (s : Session σ) (t : Session τ) : Prop :=
  ∃ y, C s.stream s.source y ∧ t = s.withSource y

variable {C : Stream → σ → τ → Prop} {source : Source σ} {source' : Source τ}

/-- The streams of paired sessions are one. -/
theorem coupled_getStream : Coupled (Paired C) getStream getStream := by
  rintro s _ ⟨y, hC, rfl⟩
  exact ⟨_, rfl, y, hC, rfl⟩

/-- Changes that go together and leave the source alone. -/
theorem coupled_modify {g : Session σ → Session σ} {g' : Session τ → Session τ}
    (h : ∀ s y, C s.stream s.source y →
      C (g s).stream (g s).source y ∧ g' (s.withSource y) = (g s).withSource y) :
    Coupled (ε := StreamError) (Paired C) (modify g) (modify g') := by
  rintro s _ ⟨y, hC, rfl⟩
  exact ⟨_, rfl, y, h s y hC⟩

/-- Both logs are told the same. -/
theorem coupled_tell (events : List Log.Event) : Coupled (Paired C) (tell events) (tell events) :=
  coupled_modify fun _ _ hC => ⟨hC, rfl⟩

/-- Both streams are lent the same buffer. -/
theorem coupled_lend (buffer : Bytes) :
    Coupled (Paired C) (Operation.lend buffer) (Operation.lend buffer) :=
  coupled_modify fun _ _ hC => ⟨hC, rfl⟩

end Session

namespace Source.Couples

variable {C : Stream → σ → τ → Prop} {source : Source σ} {source' : Source τ}
  (h : source.Couples C source')

include h

/-- Changes to the window, the position and the stored checksums. -/
theorem modifyStream {f : Stream → Stream} (hf : ∀ s, Stream.Alike s (f s)) :
    Coupled (Paired C) (modifyStream f) (modifyStream f) :=
  coupled_modify fun s _ hC => ⟨h.alike hC (hf s.stream), rfl⟩

/-- A copy out of the window leaves the source alone. -/
theorem copy (offset size : Nat) :
    Coupled (Paired C) (Stream.copy offset size) (Stream.copy offset size) :=
  coupled_modify fun _ _ hC => ⟨h.alike hC .placed, rfl⟩

/-- Data goes into the window or the lent buffer of both. -/
theorem deliver (target : Stream.Target) (bytes : Bytes) :
    Coupled (Paired C) (Stream.deliver target bytes) (Stream.deliver target bytes) := by
  cases target with
  | window => exact coupled_modify fun _ _ hC => ⟨h.alike hC .placed, rfl⟩
  | lent offset => exact coupled_modify fun _ _ hC => ⟨hC, rfl⟩

/-- Both sources answer a request alike. -/
theorem request (r : Request) :
    Coupled (Paired C) (Session.request source r) (Session.request source' r) := by
  rw [Session.request, Session.request]
  refine coupled_focus (fun s _ _ => h.read s.stream r) ?_ ?_
  · rintro s _ ⟨y, hC, rfl⟩
    exact hC
  · rintro s _ x y ⟨_, _, rfl⟩ hC
    exact ⟨y, hC, rfl⟩

/-- Both sources find another copy, or neither does. -/
theorem switched (position : Int) :
    Coupled (Paired C) (Session.switch source position) (Session.switch source' position) := by
  refine coupled_get_bind ?_
  rintro s _ ⟨y, hC, rfl⟩
  obtain ⟨y', hswitch, hC'⟩ := h.switch hC position
  have hswitch : source'.switch position (s.withSource y).source = _ := hswitch
  rw [hswitch]
  exact .bind (fun _ _ _ => ⟨_, rfl, y', hC', rfl⟩) fun _ =>
    (coupled_tell _).bind fun _ => coupled_pure _

end Source.Couples

/-! ## Streams -/

namespace Stream

variable {C : Stream → σ → τ → Prop} {source : Source σ} {source' : Source τ}

/-- Comparisons are coupled where the state of the checksum doesn't matter. -/
theorem coupled_compare (hchecksum : ∀ {stream x y}, C stream x y → ∀ checksum,
    C { stream with checksum } x y) (bytes : Bytes) :
    Coupled (Paired C) (Stream.compare bytes) (Stream.compare bytes) := by
  rw [Stream.compare, Stream.compare]
  refine coupled_getStream.bind fun s => .ite (coupled_pure _) (.checked ?_)
  cases s.checksum with
  | none => exact coupled_pure _
  | some checksum =>
      exact .bind (coupled_modify fun _ _ hC => ⟨hchecksum hC _, rfl⟩) fun _ => coupled_pure _

variable (h : source.Couples C source')

include h

/-- The window is filled alike where it is fetched alike. -/
theorem coupled_fillWith {fetch : StreamM σ (Option Nat)} {fetch' : StreamM τ (Option Nat)}
    (hfetch : Coupled (Paired C) fetch fetch') :
    Coupled (Paired C) (fillWith fetch) (fillWith fetch') :=
  coupled_getStream.bind fun _ => .checked (hfetch.bind fun _ => h.modifyStream fun _ => .placed)

/-- Bytes are discarded alike where the window is filled alike. -/
theorem coupled_discardWith {fill : StreamM σ Unit} {fill' : StreamM τ Unit}
    (hfill : Coupled (Paired C) fill fill') (fuel : Nat) (size : Int) :
    Coupled (Paired C) (discardWith fill fuel size) (discardWith fill' fuel size) := by
  induction fuel generalizing size with
  | zero => exact .ite (coupled_throw _) (coupled_pure _)
  | succ fuel ih =>
      rw [discardWith, discardWith]
      refine .ite (coupled_pure _) (coupled_getStream.bind fun s => .ite ?used ?unused)
      case used =>
        exact hfill.bind fun _ => coupled_getStream.bind fun _ => .ite (coupled_pure _)
          (coupled_getStream.bind fun _ => (h.modifyStream fun _ => .placed).bind fun _ => ih _)
      case unused =>
        exact coupled_getStream.bind fun _ => (h.modifyStream fun _ => .placed).bind fun _ => ih _

/-- A seek leads to the same start of a chunk, and discards the same bytes from there. -/
theorem coupled_seekWith {fill : StreamM σ Unit} {fill' : StreamM τ Unit}
    (hfill : Coupled (Paired C) fill fill') (position : Int) :
    Coupled (Paired C) (seekWith source fill position) (seekWith source' fill' position) := by
  rw [seekWith, seekWith]
  refine .ite (coupled_pure _) (coupled_getStream.bind fun s =>
    .ite (h.modifyStream fun _ => .placed) (coupled_get_bind ?_))
  rintro x _ ⟨y, hC, rfl⟩
  have hstart : source'.start (x.withSource y).source = source.start x.source := h.start hC
  rw [hstart]
  exact .bind (coupled_modify fun _ _ hC => ⟨h.alike (h.reset hC) .placed, rfl⟩) fun _ =>
    .checked (coupled_discardWith h hfill _ _)

section Comparing

variable [Comparing σ] [Comparing τ]
  (hcompare : ∀ bytes, Coupled (Paired C) (Comparing.compare bytes) (Comparing.compare bytes))

include hcompare

/-- A single try has the same verdict. -/
theorem coupled_tryOnce (target : Target) (size : Nat) :
    Coupled (Paired C) (tryOnce source target size) (tryOnce source' target size) := by
  rw [tryOnce, tryOnce]
  refine coupled_getStream.bind fun s => (h.request _).bind fun reply => ?_
  cases reply with
  | ended below => exact coupled_pure _
  | chunk data sums =>
      refine (h.deliver target data).bind fun _ => (h.modifyStream fun _ => .keeping sums).bind fun _ =>
        .ite (coupled_pure _) ((hcompare data).bind fun mismatch => ?_)
      cases mismatch with
      | none => exact (h.modifyStream fun _ => .placed).bind fun _ => coupled_pure _
      | some mismatch => exact coupled_pure _

/-- All attempts of a fetch are alike, for each finds the same damage as its counterpart. -/
theorem coupled_attempt {reseek : Int → StreamM σ Unit} {reseek' : Int → StreamM τ Unit}
    (hreseek : ∀ position, Coupled (Paired C) (reseek position) (reseek' position))
    (target : Target) (size left : Nat) :
    Coupled (Paired C) (attempt source reseek target size left)
      (attempt source' reseek' target size left) := by
  induction left with
  | zero => exact coupled_throw _
  | succ left ih =>
      rw [attempt, attempt]
      refine coupled_getStream.bind fun s => (coupled_tryOnce h hcompare target size).bind fun tried => ?_
      cases tried with
      | ended => exact coupled_pure _
      | passed count => exact coupled_pure _
      | damaged data mismatch =>
          have htell := coupled_tell (C := C) [.switched s.name s.next left]
          have hretry := htell.bind fun _ => (hreseek s.next).bind fun _ => ih
          refine (coupled_tell _).bind fun _ => .checked ((h.switched _).bind fun found => ?_)
          exact .ite hretry ((coupled_throw _).bind fun _ => hretry)

/-- A fetch begins both streams anew and makes the same attempts. -/
theorem coupled_fetchWith {reseek : Int → StreamM σ Unit} {reseek' : Int → StreamM τ Unit}
    (hreseek : ∀ position, Coupled (Paired C) (reseek position) (reseek' position))
    (target : Target) (size : Nat) :
    Coupled (Paired C) (fetchWith source reseek target size)
      (fetchWith source' reseek' target size) :=
  (h.modifyStream fun _ => .placed).bind fun _ => coupled_getStream.bind fun _ =>
    coupled_attempt h hcompare hreseek target size _

/-- The window is refilled alike, however deep fetches and seeks are nested. -/
theorem coupled_refill (nesting : Nat) :
    Coupled (Paired C) (refill source nesting) (refill source' nesting) := by
  induction nesting with
  | zero => exact coupled_throw _
  | succ nesting ih =>
      exact coupled_getStream.bind fun s =>
        coupled_fillWith h (coupled_fetchWith h hcompare (coupled_seekWith h ih) .window s.maxChunk)

/-- The seeks that fetches make go alike. -/
theorem coupled_seekNested (nesting : Nat) (position : Int) :
    Coupled (Paired C) (seekNested source nesting position)
      (seekNested source' nesting position) :=
  coupled_seekWith h (coupled_refill h hcompare nesting) position

/-- The window is filled alike. -/
theorem coupled_fill : Coupled (Paired C) (fill source) (fill source') :=
  coupled_getStream.bind fun _ => coupled_refill h hcompare _

/-- Data is fetched into the lent buffers alike. -/
theorem coupled_fetchLent (offset size : Nat) :
    Coupled (Paired C) (fetchLent source offset size) (fetchLent source' offset size) :=
  coupled_getStream.bind fun _ =>
    coupled_fetchWith h hcompare (coupled_seekNested h hcompare _) _ size

/-- The next byte is the same. -/
theorem coupled_readByte : Coupled (Paired C) (readByte source) (readByte source') := by
  rw [readByte, readByte]
  refine coupled_getStream.bind fun s => .ite ((coupled_fill h hcompare).bind fun _ => ?_) ?_
  all_goals
    exact coupled_getStream.bind fun _ => .ite (coupled_pure _)
      ((h.modifyStream fun _ => .placed).bind fun _ => coupled_pure _)

/-- A single read gives the same number of bytes. -/
theorem coupled_readOnce (offset size : Nat) :
    Coupled (Paired C) (readOnce source offset size) (readOnce source' offset size) := by
  refine coupled_getStream.bind fun s => .ite (.ite (coupled_fetchLent h hcompare offset size) ?_)
    ((h.copy offset _).bind fun _ => coupled_pure _)
  exact (coupled_fill h hcompare).bind fun _ => coupled_getStream.bind fun t =>
    .ite (coupled_pure _) ((h.copy offset _).bind fun _ => coupled_pure _)

/-- Reads up to a number of bytes give the same number. -/
theorem coupled_readUpTo (fuel offset size : Nat) :
    Coupled (Paired C) (readUpTo source fuel offset size)
      (readUpTo source' fuel offset size) := by
  induction fuel generalizing offset size with
  | zero => exact coupled_pure _
  | succ fuel ih =>
      rw [readUpTo, readUpTo]
      refine (coupled_readOnce h hcompare offset size).bind fun count => ?_
      cases count with
      | none => exact coupled_pure _
      | some count => exact .ite (coupled_pure _) ((ih _ _).bind fun _ => coupled_pure _)

/-- A read gives the same number of bytes in the lent buffer. -/
theorem coupled_read (offset size : Nat) :
    Coupled (Paired C) (Stream.read source offset size) (Stream.read source' offset size) := by
  refine coupled_get_bind ?_
  rintro s _ ⟨y, -, rfl⟩
  exact .checked (.ite (coupled_pure _)
    ((coupled_readUpTo h hcompare size offset size).bind fun _ => coupled_pure _))

/-- A seek does the same to both streams. -/
theorem coupled_seek (position : Int) :
    Coupled (Paired C) (seek source position) (seek source' position) :=
  coupled_getStream.bind fun _ => coupled_seekNested h hcompare _ position

/-- A skip goes over the same number of bytes. -/
theorem coupled_skip (count : Int) :
    Coupled (Paired C) (skip source count) (skip source' count) := by
  rw [skip, skip]
  exact .ite (coupled_pure _)
    (coupled_getStream.bind fun _ => (coupled_seek h hcompare _).bind fun _ => coupled_pure _)

/-- Reads of the seekable streams give the same numbers. -/
theorem coupled_seekable_read (offset size : Nat) :
    Coupled (Paired C) ((seekable source).read offset size)
      ((seekable source').read offset size) := by
  refine (coupled_read h hcompare offset size).bind fun count => ?_
  cases count with
  | none => exact coupled_pure _
  | some count => exact coupled_pure _

/-- Their reads at a position give the same numbers. -/
theorem coupled_seekable_readAt (position : Int) (offset size : Nat) :
    Coupled (Paired C) ((seekable source).readAt position offset size)
      ((seekable source').readAt position offset size) := by
  refine Seekable.coupled_readAt ?_ ?_ (coupled_seek h hcompare) (coupled_seekable_read h hcompare)
    position offset size
  all_goals
    rintro s _ ⟨y, -, rfl⟩
    rfl

end Comparing

end Stream

/-- Operations do the same on coupled sources, with coupled comparisons. -/
theorem Operation.coupled_perform [Comparing σ] [Comparing τ] {C : Stream → σ → τ → Prop}
    {source : Source σ} {source' : Source τ} (h : source.Couples C source')
    (hcompare : ∀ bytes, Coupled (Paired C) (Comparing.compare bytes) (Comparing.compare bytes))
    (operation : Operation) :
    Coupled (Paired C) (operation.perform source) (operation.perform source') := by
  have hread := Stream.coupled_seekable_read h hcompare
  have hreadAt := Stream.coupled_seekable_readAt h hcompare
  cases operation with
  | readByte => exact (Stream.coupled_readByte h hcompare).bind fun _ => coupled_pure _
  | read buffer offset size =>
      exact (coupled_lend buffer).bind fun _ => (hread offset size).bind fun _ => coupled_pure _
  | readFully buffer offset size =>
      have hparts := Seekable.coupled_readParts (fun _ => hread) size 0 offset size
      exact (coupled_lend buffer).bind fun _ => hparts.bind fun _ => coupled_pure _
  | readAt position buffer offset size =>
      exact (coupled_lend buffer).bind fun _ =>
        (hreadAt position offset size).bind fun _ => coupled_pure _
  | readFullyAt position buffer offset size =>
      have hparts := Seekable.coupled_readParts (fun done => hreadAt (position + done)) size 0 offset size
      exact (coupled_lend buffer).bind fun _ => hparts.bind fun _ => coupled_pure _
  | seek position => exact (Stream.coupled_seek h hcompare position).bind fun _ => coupled_pure _
  | skip count => exact (Stream.coupled_skip h hcompare count).bind fun _ => coupled_pure _
  | switch position => exact (h.switched position).bind fun _ => coupled_pure _
  | setVerify verify =>
      exact (coupled_modify fun _ _ hC => ⟨h.verifying hC verify, rfl⟩).bind fun _ =>
        coupled_getStream.bind fun _ => coupled_pure _
  | mark limit => exact coupled_throw _
  | reset => exact coupled_throw _

end ChunkGuard
