import ChunkGuard.Proofs.Initial
import ChunkGuard.Proofs.Window

/-!
# Where the cursor may leave the window

The cursor stays inside of the data in the window (`Stream.Balanced`) as long as no fetch fails over
inside of a chunk, whatever the source answers (`Stream.balanced_of_reaches`). A failover at the start
of a chunk seeks to where the stream is and so does nothing. One inside of a chunk fetches the bytes
before it again, into the window that the interrupted fetch may be about to fill.
-/

namespace ChunkGuard

open Session

variable {σ : Type} {source : Source σ} {S : σ → σ → Prop} {I : σ → Prop} {W : Session σ → Prop}
  {s t : Session σ}

/-- The cursor is inside of the data in the window, and the data is no more than a chunk. -/
structure Stream.Balanced (s : Stream) : Prop where
  cursor_le : s.cursor ≤ s.filled
  filled_le : s.filled ≤ s.maxChunk

namespace Stream.Balanced

variable {s : Stream}

theorem available_le (h : s.Balanced) : s.available ≤ s.filled - s.cursor := by
  rw [available_eq_mod h.cursor_le]
  exact Nat.mod_le _ _

/-- The position is as far before the next fetch as there are bytes to hand out. -/
theorem position_eq (h : s.Balanced) (hchunk : s.maxChunk < Word.count) :
    s.position = s.next - s.available := by
  have hcursor := h.cursor_le
  have hfilled := h.filled_le
  rw [position, available_eq_mod hcursor, Nat.mod_eq_of_lt (by omega)]
  omega

end Stream.Balanced

/-! ## Fetching -/

namespace Stream

theorem Tried.alike {target : Target} {size : Nat} {r : Except StreamError Attempt}
    (h : Tried source target size s r t) : s.stream.Alike t.stream :=
  (h.kept source.respects_true (.refl source.respects_true s)).stream

/-- An attempt leaves the window's bounds as they are, and moves the stream only if it passes. -/
theorem Tried.bounds {target : Target} {size : Nat} {r : Except StreamError Attempt}
    (h : Tried source target size s r t) :
    t.stream.filled = s.stream.filled ∧ t.stream.cursor = s.stream.cursor ∧
      ∀ data mismatch, r = .ok (.damaged data mismatch) → t.stream.next = s.stream.next := by
  cases h with
  | refused e x => exact ⟨rfl, rfl, fun _ _ hr => by cases hr⟩
  | ended code x => exact ⟨rfl, rfl, fun _ _ hr => by cases hr⟩
  | empty sums x => cases target <;> exact ⟨rfl, rfl, fun _ _ hr => by cases hr⟩
  | crowded data sums x => cases target <;> exact ⟨rfl, rfl, fun _ _ hr => by cases hr⟩
  | passed data sums x => cases target <;> exact ⟨rfl, rfl, fun _ _ hr => by cases hr⟩
  | damaged data sums x => cases target <;> exact ⟨rfl, rfl, fun _ _ _ => rfl⟩

/-- An attempt that fails leaves the stream where it was. -/
theorem Tried.next_of_error {target : Target} {size : Nat} {e : StreamError}
    (h : Tried source target size s (.error e) t) : t.stream.next = s.stream.next := by
  cases h with
  | refused x => rfl
  | crowded data sums x => cases target <;> rfl

/-- A source that keeps to the size of a request lets no more bytes pass. -/
theorem Tried.passed_le (hbounded : source.Bounded) {target : Target} {size count : Nat}
    (h : Tried source target size s (.ok (.passed count)) t) : count ≤ size := by
  cases h with
  | passed data sums x hread => exact (hbounded _ _ _ _ _ hread).1

/-- A fetch that seeks back to where it was goes on with all that was kept. -/
theorem ends_retry (hS : source.Respects S) (hs : s.stream.Ready) (nesting : Nat) (position : Int)
    (target : Target) (size attempts : Nat) :
    Ends (seekNested source nesting position) s
      (fun _ t => Ends (attempt source (seekNested source nesting) target size attempts) t
        (fun _ u => Kept S s u) (fun _ u => Kept S s u))
      (fun _ t => Kept S s t) := by
  have hseek := fun position => keeps_seekNested hS hs nesting position
  exact (hseek position s (.refl hS s)).mono
    (fun _ t ht => keeps_attempt hS hs hseek target size attempts t ht) (fun _ _ ht => ht)

/-- A fetch into an empty window leaves it empty and ends as an attempt from where it was does, or
fails there, unless it fails over inside of a chunk. `J` goes from attempt to attempt, on to a failover
at the start of a chunk. -/
theorem ends_attempt_unless {J : Session σ → Prop} {Q : Option Nat → Session σ → Prop}
    {target : Target} {size : Nat} (hwarns : source.Warns S I W) (hstate : ∀ s, J s → I s.source)
    (hended : ∀ s t, J s → Tried source target size s (.ok .ended) t → Q none t)
    (hpassed : ∀ s t count, J s → Tried source target size s (.ok (.passed count)) t →
      Q (some count) t)
    (hretry : ∀ s t data mismatch left, J s →
      Tried source target size s (.ok (.damaged data mismatch)) t →
      I (source.switch s.stream.next t.source).2 →
      J (((t.told [s.stream.corruption data]).switched source s.stream.next).told
        [.switched s.stream.name s.stream.next left]))
    (hs : s.stream.Ready) (hfilled : s.stream.filled = 0) (hcursor : s.stream.cursor = 0)
    (hJ : J s) (nesting attempts : Nat) :
    Ends (attempt source (seekNested source nesting) target size attempts) s
      (fun count t => W t ∨ t.stream.filled = 0 ∧ t.stream.cursor = 0 ∧ Q count t)
      (fun _ t => W t ∨ t.stream.filled = 0 ∧ t.stream.cursor = 0 ∧
        t.stream.next = s.stream.next) := by
  induction attempts generalizing s with
  | zero => exact .inr ⟨hfilled, hcursor, rfl⟩
  | succ left ih =>
      have hempty : ∀ r t, Tried source target size s r t →
          t.stream.filled = 0 ∧ t.stream.cursor = 0 := fun r t ht =>
        ⟨ht.bounds.1.trans hfilled, ht.bounds.2.1.trans hcursor⟩
      refine ends_attempt_succ hs ?ended ?passed ?failed ?last ?alone ?retried
      case ended =>
        intro t ht
        exact .inr ⟨(hempty _ t ht).1, (hempty _ t ht).2, hended s t hJ ht⟩
      case passed =>
        intro count t ht
        exact .inr ⟨(hempty _ t ht).1, (hempty _ t ht).2, hpassed s t count hJ ht⟩
      case failed =>
        intro e t ht
        exact .inr ⟨(hempty _ t ht).1, (hempty _ t ht).2, ht.next_of_error⟩
      case last =>
        intro _ data mismatch t ht
        exact .inr ⟨(hempty _ t ht).1, (hempty _ t ht).2, ht.bounds.2.2 _ _ rfl⟩
      case alone =>
        intro _ data mismatch t ht _
        exact .inr ⟨(hempty _ t ht).1, (hempty _ t ht).2, ht.bounds.2.2 _ _ rfl⟩
      case retried =>
        intro _ data mismatch t ht hfound
        have hready : t.stream.Ready := ht.alike.ready hs
        have hnext : s.stream.next = t.stream.next := (ht.bounds.2.2 _ _ rfl).symm
        have hI : I (source.switch s.stream.next t.source).2 := by
          have hkept := ht.kept hwarns.respects (.refl hwarns.respects s)
          exact hwarns.state (hwarns.respects.trans hkept.source (hwarns.respects.switch _ _))
            (hstate s hJ)
        by_cases hstart :
            source.start (source.switch s.stream.next t.source).2 s.stream.next = s.stream.next
        · refine ends_seekNested_next hready hnext ?_ (hempty _ t ht).1 (hempty _ t ht).2 ?_
          · show source.start _ t.stream.next = t.stream.next
            rw [← hnext]
            exact hstart
          · rw [hnext]
            exact ih hready (hempty _ t ht).1 (hempty _ t ht).2
              (hnext ▸ hretry s t data mismatch left hJ ht hI)
        · have hW : W (((t.told [s.stream.corruption data]).switched source s.stream.next).told
              [.switched s.stream.name s.stream.next left]) :=
            hwarns.failover (hstate s hJ) ht
              ⟨hfound, rfl, _, _, List.mem_append_right _ (.head _)⟩ hstart
          refine (ends_retry hwarns.respects (by exact hready) nesting _ target size left).mono
            (fun _ v hv => ?_) (fun _ v hv => .inl (hwarns.kept hW hv))
          exact hv.mono (fun _ w hw => .inl (hwarns.kept hW hw))
            (fun _ w hw => .inl (hwarns.kept hW hw))

/-- A fetch into an empty window leaves it empty, unless it fails over inside of a chunk. -/
theorem ends_attempt_empty (hbounded : source.Bounded) (hwarns : source.Warns S I W)
    (hs : s.stream.Ready) (hI : I s.source) (hfilled : s.stream.filled = 0)
    (hcursor : s.stream.cursor = 0) (nesting : Nat) (target : Target) (size attempts : Nat) :
    Ends (attempt source (seekNested source nesting) target size attempts) s
      (fun count t => W t ∨ t.stream.filled = 0 ∧ t.stream.cursor = 0 ∧ count.getD 0 ≤ size)
      (fun _ t => W t ∨ t.stream.filled = 0 ∧ t.stream.cursor = 0) := by
  refine (ends_attempt_unless (J := fun u => I u.source) (Q := fun count _ => count.getD 0 ≤ size)
    hwarns (fun _ hJ => hJ) (fun _ _ _ _ => Nat.zero_le _) (fun _ _ _ _ ht => ht.passed_le hbounded)
    (fun _ _ _ _ _ _ _ hI => hI) hs hfilled hcursor hI nesting attempts).mono (fun _ _ ht => ht)
    (fun _ _ ht => ht.imp_right fun hempty => ⟨hempty.1, hempty.2.1⟩)

end Stream

/-! ## Between operations -/

/-- An empty window is balanced. -/
theorem Stream.Balanced.of_empty {s : Stream} (hfilled : s.filled = 0) (hcursor : s.cursor = 0) :
    s.Balanced := ⟨by omega, by omega⟩

/-- The window stays balanced in every step, unless a fetch fails over inside of a chunk. -/
theorem Source.Warns.balanced (hwarns : source.Warns S I W) (hbounded : source.Bounded) :
    WindowInvariant source S W (fun s => s.stream.Balanced ∧ I s.source) where
  respects := hwarns.respects
  lasting := hwarns.lasting
  cursor_le h := h.1.cursor_le
  altered h _ _ _ hcursor := ⟨⟨hcursor, h.1.filled_le⟩, h.2⟩
  switched h position := ⟨h.1, hwarns.state (hwarns.respects.switch position _) h.2⟩
  jumped h _ _ := ⟨.of_empty rfl rfl, h.2⟩
  fetched {s} hs h nesting target size := by
    have hS := hwarns.respects
    have hfetch := Stream.keeps_fetchWith hS hs
      (fun position => Stream.keeps_seekNested hS hs nesting position) target size s (.refl hS s)
    have hempty := Stream.ends_attempt_empty (s := s.cleared) hbounded hwarns hs h.2 rfl rfl nesting
      target size s.stream.attempts
    rw [← Stream.ends_fetchWith] at hempty
    refine (hfetch.and hempty).mono (fun count t ht => ?_) (fun _ t ht => ?_)
    · have hI := hwarns.state ht.1.source h.2
      refine ht.2.imp_right fun ⟨hfilled, hcursor, hcount⟩ => ⟨⟨.of_empty hfilled hcursor, hI⟩,
        hcursor, fun _ hsize => ⟨⟨?_, ?_⟩, hI⟩⟩
      · show t.stream.cursor ≤ count.getD 0
        omega
      · show count.getD 0 ≤ t.stream.maxChunk
        rw [ht.1.stream.maxChunk, ← hsize]
        exact hcount
    · exact ht.2.imp_right fun hempty =>
        ⟨.of_empty hempty.1 hempty.2, hwarns.state ht.1.source h.2⟩

/-- Whatever was done with a stream, its window is balanced, unless a fetch failed over inside of a
chunk. -/
theorem Stream.balanced_of_reaches {checksum : Option Algorithm} {options : Options}
    {stream : Stream} {x : σ} {change : σ → σ → Prop} (hbounded : source.Bounded)
    (hwarns : source.Warns S I W) (hstream : Stream.ofOptions? checksum options = .ok stream)
    (hchange : ∀ x y, change x y → S x y) (hx : I x)
    (ht : Session.Reaches source (fun _ => True) change { stream, source := x } t) (hW : ¬ W t) :
    t.stream.Balanced := by
  have hready := Stream.ready_of_ofOptions? hstream
  obtain ⟨-, -, rfl⟩ := Stream.eq_of_ofOptions? hstream
  have hinvariant := hwarns.balanced hbounded
  have hunless : t.Unless W fun s => s.stream.Balanced ∧ I s.source :=
    ht.keeps ⟨hready, fun _ => ⟨.of_empty rfl rfl, hx⟩⟩ (fun operation _ => hinvariant.keeps operation)
      (fun u y hu hy => ⟨hu.ready, fun hW => ?changed⟩)
  case changed =>
    have hu := hu.holds (hinvariant.not_before hW (List.prefix_refl _) (hchange _ _ hy))
    exact ⟨hu.1, hwarns.state (hchange _ _ hy) hu.2⟩
  exact (hunless.holds hW).1

end ChunkGuard
