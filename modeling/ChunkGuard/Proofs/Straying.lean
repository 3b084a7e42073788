import ChunkGuard.Proofs.Batch
import ChunkGuard.Proofs.History

/-!
# Failovers inside of a chunk

A fetch that fails over seeks back to where it was, so it goes on from there if the source that it
left behind starts a chunk at that position. Inside of a chunk it begins anew at the chunk's start.
`Session.Strayed` tells so of a recorded session: the log has the failover, and the history has the
look for another copy with the state that it left. `Source.Warns` is all that proofs take from it, so
that they are proofs about replicas as well: these fail over at starts of chunks only
(`Replicas.settles`), and there is nothing to warn of.
-/

namespace ChunkGuard

open Session

section

variable {σ : Type} {source : Source σ} {S : σ → σ → Prop} {I : σ → Prop} {W : Session σ → Prop}

/-! ## What answers respect -/

/-- The source may do anything. -/
theorem Source.respects_true (source : Source σ) : source.Respects fun _ _ => True where
  refl _ := trivial
  trans _ _ := trivial
  read _ _ := .trivial
  switch _ _ := trivial

/-- What answers respect severally they respect together. -/
theorem Source.Respects.and {S' : σ → σ → Prop} (h : source.Respects S) (h' : source.Respects S') :
    source.Respects fun x y => S x y ∧ S' x y where
  refl x := ⟨h.refl x, h'.refl x⟩
  trans hxy hyz := ⟨h.trans hxy.1 hyz.1, h'.trans hxy.2 hyz.2⟩
  read request x := (h.read request x).and (h'.read request x)
  switch position x := ⟨h.switch position x, h'.switch position x⟩

/-! ## Warnings -/

/-- The second session is the first one after a failover from there: it is where another copy was
looked for, and the log tells so. -/
structure Session.FailedOver (source : Source σ) (position : Int) (s t : Session σ) : Prop where
  found : (source.switch position s.source).1.1 = true
  source_eq : t.source = (source.switch position s.source).2
  told : ∃ name left, Log.Event.switched name position left ∈ t.events

/-- In sessions with `I`, which answers keep along with `S`, a failover that finds its position inside
of a chunk leaves `W`, and `W` stays from then on. -/
structure Source.Warns (source : Source σ) (S : σ → σ → Prop) (I : σ → Prop)
    (W : Session σ → Prop) : Prop where
  respects : source.Respects S
  state : ∀ {x y}, S x y → I x → I y
  lasting : ∀ {s t}, W s → s.events <+: t.events → S s.source t.source → W t
  failover : ∀ {s t u target size data mismatch}, I s.source →
    Stream.Tried source target size s (.ok (.damaged data mismatch)) t →
    FailedOver source s.stream.next t u →
    source.start u.source s.stream.next ≠ s.stream.next → W u

namespace Source.Warns

variable {s t : Session σ} (h : source.Warns S I W)
include h

/-- What was warned of stays so. -/
theorem kept (hW : W s) (hkept : s.Kept S t) : W t := h.lasting hW hkept.events hkept.source

/-- A warning is about the source and the log only. -/
theorem unchanged (hW : W s) (hsource : t.source = s.source) (hevents : t.events = s.events) : W t :=
  h.lasting hW (hevents ▸ List.prefix_refl _) (hsource ▸ h.respects.refl _)

end Source.Warns

/-- What is warned of everywhere is warned of in states that answers keep. -/
theorem Source.Warns.within (h : source.Warns S (fun _ => True) W)
    (hI : source.Respects fun x y => I x → I y) :
    source.Warns (fun x y => S x y ∧ (I x → I y)) I W where
  respects := h.respects.and hI
  state hxy := hxy.2
  lasting hW hevents hS := h.lasting hW hevents hS.1
  failover _ := h.failover trivial

/-- Data comes with its checksums only from where a chunk starts, also in the copy that is looked for
there. -/
def Source.Settles (source : Source σ) : Prop :=
  ∀ request x data sums y, request.capacity.isSome →
    source.read request x = .ok (.chunk data sums) y →
    source.start (source.switch request.position y).2 request.position = request.position

/-- Where damage is found at starts of chunks only, there is nothing to warn of. -/
theorem Source.Settles.warns (h : source.Settles) (hS : source.Respects S)
    (hI : ∀ {x y}, S x y → I x → I y) : source.Warns S I fun _ => False where
  respects := hS
  state := hI
  lasting hW _ _ := hW
  failover {s t u target size data mismatch} _ htried hfailed hinside := by
    cases htried with
    | damaged _ sums y _ hread _ _ hmismatch =>
        refine hinside ?_
        rw [hfailed.source_eq, Stream.source_received]
        exact h (s.stream.ask size) s.source data sums y
          (Stream.isSome_capacity_of_mismatch? hmismatch) hread

/-- So it is whatever else answers do. -/
theorem Source.Settles.warns_nothing (h : source.Settles) :
    source.Warns (fun _ _ => True) (fun _ => True) fun _ => False :=
  h.warns source.respects_true fun _ _ => trivial

/-! ## Recorded sources -/

/-- Data comes from where it comes from while the calls are noted. -/
theorem Source.Settles.recorded (h : source.Settles) : source.recorded.Settles := by
  intro request x data sums y hcapacity hread
  obtain ⟨state, hstate, rfl⟩ := read_recorded_eq_ok.mp hread
  exact h request x.state data sums state hcapacity hstate

/-- A fetch failed over at a position inside of a chunk: the log tells of a failover at a position
where the source, after it looked for another copy there, doesn't start a chunk. -/
def Session.Strayed (source : Source σ) (s : Session (Recorded σ)) : Prop :=
  ∃ name position left before, Log.Event.switched name position left ∈ s.events ∧
    Call.switch before position true ∈ s.source.calls ∧
    source.start (source.switch position before).2 position ≠ position

/-- A session that comes to no failover didn't stray. -/
theorem Session.not_strayed_of_events {s : Session (Recorded σ)}
    (h : ∀ name position left, Log.Event.switched name position left ∉ s.events) :
    ¬ s.Strayed source := by
  rintro ⟨name, position, left, before, htold, -⟩
  exact h name position left htold

/-- Of a recorded source the log and the history together warn of failovers inside of chunks. -/
theorem Source.warns_strayed (source : Source σ) :
    source.recorded.Warns (fun x y => x.calls <+: y.calls) (fun _ => True)
      (Session.Strayed source) where
  respects := source.respects_calls
  state _ _ := trivial
  lasting {s t} hs hevents hcalls := by
    obtain ⟨name, position, left, before, htold, hcall, hinside⟩ := hs
    exact ⟨name, position, left, before, hevents.subset htold, hcalls.subset hcall, hinside⟩
  failover {s t u _ _ _ _} _ _ hfailed hinside := by
    obtain ⟨name, left, htold⟩ := hfailed.told
    refine ⟨name, s.stream.next, left, t.source.state, htold, ?_, ?_⟩
    · rw [hfailed.source_eq]
      refine List.mem_append_right _ (List.mem_singleton.mpr ?_)
      exact congrArg _ hfailed.found.symm
    · rw [hfailed.source_eq] at hinside
      exact hinside

end

/-! ## Replicas -/

namespace Replicas

variable {r : Replicas}

/-- Chunks come with their checksums from the start of a chunk only. -/
theorem Answered.start_eq {request : Request} {data sums : Bytes}
    (h : r.Answered request (.ok (.chunk data sums))) (hcapacity : request.capacity.isSome) :
    Chunk.start r.chunk request.position = request.position := by
  cases h with
  | plain offset _ _ hnone =>
      rw [hnone] at hcapacity
      cases hcapacity
  | verified offset capacity hoffset _ _ haligned =>
      rw [hoffset, Chunk.start, haligned, Int.sub_zero]

/-- Replicas find damage at the start of a chunk only. -/
theorem settles : (source : Source Replicas).Settles := by
  intro request r data sums r' hcapacity hread
  obtain ⟨hanswered, hreread⟩ := (ends_read r request).ok hread
  show Chunk.start (r'.switch request.position).2.chunk _ = _
  rw [chunk_switch, hreread.chunk]
  exact hanswered.start_eq hcapacity

/-- Replicas give no more than was asked for. -/
theorem bounded_source : (source : Source Replicas).Bounded := by
  intro request before data sums after hread
  have hanswered := ((ends_read before request).ok hread).1
  obtain ⟨hdata, -, hsums⟩ := hanswered.inside
  refine ⟨hdata, ?_⟩
  cases hcapacity : request.capacity with
  | some capacity => exact (hsums capacity hcapacity).2
  | none =>
      cases hanswered with
      | plain => exact Nat.le_refl 0
      | verified offset capacity _ _ hsome =>
          rw [hcapacity] at hsome
          cases hsome

end Replicas

end ChunkGuard
