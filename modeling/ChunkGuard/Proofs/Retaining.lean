import ChunkGuard.Proofs.Resuming
import ChunkGuard.Proofs.Supply

/-!
# What the window retains

The bytes in the window are those that were fetched last for their offsets (`Session.Retains`), as long
as no fetch fails over inside of a chunk. Of the source this takes only that it starts a chunk at or
before each position in it: its replies may be longer than asked for, and each copy may have chunks of
its own. A failover inside of a chunk may leave bytes in the window that belong somewhere else, and
then the stream stands elsewhere, too.
-/

namespace ChunkGuard

open Session

variable {σ : Type} {source : Source σ} {S : Recorded σ → Recorded σ → Prop}
  {I : Recorded σ → Prop} {W : Session (Recorded σ) → Prop}

/-- The source starts a chunk at or before each position in it. -/
structure Source.Grounded (source : Source σ) : Prop where
  start_nonneg : ∀ x {position}, 0 ≤ position → 0 ≤ source.start x position
  start_le : ∀ x {position}, 0 ≤ position → source.start x position ≤ position

theorem Source.Orderly.grounded (h : source.Orderly) : source.Grounded :=
  ⟨h.start_nonneg, h.start_le⟩

/-- Every byte of the window was fetched last for its offset. -/
structure Session.Retains (s : Session (Recorded σ)) : Prop where
  cursor_le : s.stream.cursor ≤ s.stream.filled
  filled_le : (s.stream.filled : Int) ≤ s.stream.next
  window : ∀ i < s.stream.filled, ∃ byte, s.stream.window[i]? = some byte ∧
    s.source.fetched? (s.stream.next.toNat - s.stream.filled + i) = some byte

namespace Session.Retains

variable {s t : Session (Recorded σ)}

theorem next_nonneg (h : s.Retains) : 0 ≤ s.stream.next := by
  have hfilled := h.filled_le
  omega

/-- An empty window retains everything that it should. -/
theorem of_empty (hfilled : s.stream.filled = 0) (hcursor : s.stream.cursor = 0)
    (hnext : 0 ≤ s.stream.next) : s.Retains where
  cursor_le := by omega
  filled_le := by omega
  window i hi := by omega

/-- A stream that is balanced as well can tell what it reads. -/
theorem traced (h : s.Retains) (hready : s.stream.Ready) (hattempts : 0 < s.stream.attempts)
    (hchunk : s.stream.maxChunk < Word.count) (hbalanced : s.stream.Balanced) : s.Traced :=
  ⟨hready, hattempts, hchunk, h.cursor_le, h.filled_le, hbalanced.filled_le, h.window⟩

end Session.Retains

/-! ## Fetching -/

namespace Stream

variable {target : Target} {size : Nat} {reply : Reply} {s t : Session (Recorded σ)}

/-- What a reply brought was fetched last. -/
theorem Replied.fetched?_eq (h : Replied source target size reply s t) (hnext : 0 ≤ s.stream.next)
    {i : Nat} (hi : i < reply.data.length) :
    t.source.fetched? (s.stream.next.toNat + i) = reply.data[i]? := by
  cases reply with
  | ended below => exact absurd hi (Nat.not_lt_zero i)
  | chunk data sums => exact Recorded.fetched?_of_reply h.called.calls_eq hnext hi

/-- What it brought into the window is retained there. -/
theorem Replied.retains (h : Replied source .window size reply s t) (hnext : 0 ≤ s.stream.next) :
    Retains { t with stream := { t.stream with filled := reply.data.length } } := by
  have hmoved := h.next_eq
  have hcursor := h.cursor
  have hwindow : t.stream.window = Bytes.write 0 reply.data s.stream.window := (h.put trivial).2
  have hoffset : t.stream.next.toNat - reply.data.length = s.stream.next.toNat := by omega
  refine ⟨?_, ?_, fun i hi => ?_⟩
  · show t.stream.cursor ≤ reply.data.length
    omega
  · show (reply.data.length : Int) ≤ t.stream.next
    omega
  · have hi : i < reply.data.length := hi
    refine ⟨reply.data[i], ?_, ?_⟩
    · show t.stream.window[i]? = _
      rw [hwindow, Bytes.getElem?_write, if_neg (Nat.not_lt_zero i), Nat.zero_add, if_pos hi,
        Nat.sub_zero, List.getElem?_eq_getElem hi]
    · show t.source.fetched? (t.stream.next.toNat - reply.data.length + i) = _
      rw [hoffset, h.fetched?_eq hnext hi, List.getElem?_eq_getElem hi]

/-- A fetch into an empty window gets a reply for where it was, unless it fails over inside of a
chunk. -/
theorem ends_attempt_replied (hwarns : source.recorded.Warns S I W) (hs : s.stream.Ready)
    (hI : I s.source) (hfilled : s.stream.filled = 0) (hcursor : s.stream.cursor = 0)
    (nesting attempts : Nat) :
    Ends (attempt source.recorded (seekNested source.recorded nesting) target size attempts) s
      (fun count t => W t ∨ ∃ u reply, u.stream.next = s.stream.next ∧
        count.getD 0 = reply.data.length ∧ Replied source target size reply u t)
      (fun _ t => W t ∨ t.stream.filled = 0 ∧ t.stream.cursor = 0 ∧
        t.stream.next = s.stream.next) := by
  refine (ends_attempt_unless
    (J := fun u => I u.source ∧ u.stream.next = s.stream.next ∧ u.stream.filled = 0 ∧
      u.stream.cursor = 0)
    (Q := fun count t => ∃ u reply, u.stream.next = s.stream.next ∧
      count.getD 0 = reply.data.length ∧ Replied source target size reply u t)
    hwarns (fun _ hu => hu.1) ?ended ?passed ?retry hs hfilled hcursor
    ⟨hI, rfl, hfilled, hcursor⟩ nesting attempts).mono
    (fun _ _ ht => ht.imp_right fun hempty => hempty.2.2) (fun _ _ ht => ht)
  case ended =>
    rintro u t ⟨-, hnext, hfilled, hcursor⟩ ht
    obtain ⟨reply, hreply, hreplied⟩ := ht.replied_of_ended hfilled hcursor
    exact ⟨u, reply, hnext, by rw [hreply]; rfl, hreplied⟩
  case passed =>
    rintro u t count ⟨-, hnext, hfilled, hcursor⟩ ht
    obtain ⟨reply, -, rfl, hreplied⟩ := ht.replied_of_passed hfilled hcursor
    exact ⟨u, reply, hnext, rfl, hreplied⟩
  case retry =>
    rintro u t data mismatch left ⟨-, hnext, hfilled, hcursor⟩ ht hI
    obtain ⟨htfilled, htcursor, htnext⟩ := ht.bounds
    exact ⟨hI, (htnext _ _ rfl).trans hnext, htfilled.trans hfilled, htcursor.trans hcursor⟩

end Stream

/-! ## Between operations -/

namespace Session.Retains

variable {s t : Session (Recorded σ)}

/-- The window retains what was fetched in every step, unless a fetch fails over inside of a chunk. -/
theorem windowInvariant (hsource : source.Grounded) (hwarns : source.recorded.Warns S I W) :
    WindowInvariant source.recorded S W (fun s => s.Retains ∧ I s.source) where
  respects := hwarns.respects
  lasting := hwarns.lasting
  cursor_le h := h.1.cursor_le
  altered h _ _ _ hcursor := ⟨⟨hcursor, h.1.filled_le, h.1.window⟩, h.2⟩
  switched h position :=
    ⟨⟨h.1.cursor_le, h.1.filled_le,
      (Recorded.Since.push _ _ fun _ _ => rfl).window h.1.filled_le h.1.window⟩,
      hwarns.state (hwarns.respects.switch position _) h.2⟩
  jumped {s} h position hposition :=
    ⟨.of_empty rfl rfl (hsource.start_nonneg s.source.state hposition), h.2⟩
  fetched {s} hs h nesting target size := by
    have hS := hwarns.respects
    have hfetch := Stream.keeps_fetchWith hS hs
      (fun position => Stream.keeps_seekNested hS hs nesting position) target size s (.refl hS s)
    have hreplied : Ends (Stream.fetchWith source.recorded (Stream.seekNested source.recorded nesting)
        target size) s _ _ :=
      Stream.ends_fetchWith.mpr (Stream.ends_attempt_replied (s := s.cleared) hwarns hs h.2 rfl rfl
        nesting s.stream.attempts)
    refine (hfetch.and hreplied).mono (fun count t ht => ?_) (fun _ t ht => ?_)
    · have hI := hwarns.state ht.1.source h.2
      refine ht.2.imp_right fun ⟨u, reply, hnext, hcount, hreplied⟩ => ?_
      have hnonneg : 0 ≤ u.stream.next := hnext ▸ h.1.next_nonneg
      have hmoved := hreplied.next_eq
      refine ⟨⟨.of_empty hreplied.filled hreplied.cursor (by omega), hI⟩, hreplied.cursor, ?_⟩
      rintro rfl -
      rw [hcount]
      exact ⟨hreplied.retains hnonneg, hI⟩
    · have hI := hwarns.state ht.1.source h.2
      refine ht.2.imp_right fun ⟨hfilled, hcursor, hnext⟩ => ?_
      exact ⟨.of_empty hfilled hcursor (hnext ▸ h.1.next_nonneg), hI⟩

/-- Whatever was done with a stream, and whatever its source went on to in between, the window retains
what was fetched last, unless a fetch failed over inside of a chunk. -/
theorem of_reaches {checksum : Option Algorithm} {options : Options} {stream : Stream}
    {x : Recorded σ} {change : Recorded σ → Recorded σ → Prop} (hsource : source.Grounded)
    (hwarns : source.recorded.Warns S I W)
    (hstream : Stream.ofOptions? checksum options = .ok stream)
    (hchange : ∀ x y, change x y → S x y ∧ y.calls = x.calls) (hx : I x)
    (hs : Session.Reaches source.recorded (fun _ => True) change { stream, source := x } s)
    (hW : ¬ W s) : s.Retains := by
  have hready := Stream.ready_of_ofOptions? hstream
  obtain ⟨-, -, rfl⟩ := Stream.eq_of_ofOptions? hstream
  have hinvariant := windowInvariant hsource hwarns
  have hunless : s.Unless W fun s => s.Retains ∧ I s.source :=
    hs.keeps ⟨hready, fun _ => ⟨.of_empty rfl rfl (Int.le_refl 0), hx⟩⟩
      (fun operation _ => hinvariant.keeps operation)
      (fun t y ht hy => ⟨ht.ready, fun hW => ?changed⟩)
  case changed =>
    obtain ⟨hS, hcalls⟩ := hchange _ _ hy
    obtain ⟨ht, hI⟩ := ht.holds (hinvariant.not_before hW (List.prefix_refl _) hS)
    exact ⟨⟨ht.cursor_le, ht.filled_le,
      (Recorded.Since.of_calls hcalls _).window ht.filled_le ht.window⟩, hwarns.state hS hI⟩
  exact (hunless.holds hW).1

end Session.Retains

end ChunkGuard
