import ChunkGuard.Proofs.Frame

/-!
# Runs

`Session.Reaches` says which sessions a session comes to: by operations, successful or not, and by
changes to what the source holds between them. An invariant of both is one of all runs
(`Session.Reaches.keeps`).
-/

namespace ChunkGuard

variable {σ : Type}

/-- The operation's buffer, if it brings one, fits into a memory whose sizes are positive signed
words. -/
def Operation.Fits (operation : Operation) : Prop :=
  ∀ buffer ∈ operation.buffer?, buffer.length < Word.half

/-- The sessions that a session comes to by allowed operations, with changes to the state of the
source in between. -/
inductive Session.Reaches (source : Source σ) (allowed : Operation → Prop)
    (change : σ → σ → Prop) (s : Session σ) : Session σ → Prop where
  | refl : Reaches source allowed change s s
  | perform {t : Session σ} (operation : Operation) :
      Reaches source allowed change s t → allowed operation →
      Reaches source allowed change s (operation.after source t)
  | change {t : Session σ} (x : σ) :
      Reaches source allowed change s t → change t.source x →
      Reaches source allowed change s { t with source := x }

namespace Session.Reaches

variable {source : Source σ} {allowed : Operation → Prop} {change : σ → σ → Prop}
  {I : Session σ → Prop} {s t : Session σ}

/-- A session comes to what operations in a row come to. -/
theorem run (h : Reaches source allowed change s t) (operations : List Operation)
    (hoperations : ∀ operation ∈ operations, allowed operation) :
    Reaches source allowed change s (Operation.run source t operations) := by
  induction operations generalizing t with
  | nil => exact h
  | cons operation operations ih =>
      exact ih (.perform operation h (hoperations _ List.mem_cons_self)) fun next hnext =>
        hoperations next (List.mem_cons_of_mem _ hnext)

/-- What every allowed operation and every change keep holds in all sessions reached. -/
theorem keeps (h : Reaches source allowed change s t) (hs : I s)
    (hperform : ∀ operation, allowed operation → Keeps I (operation.perform source))
    (hchange : ∀ t x, I t → change t.source x → I { t with source := x }) : I t := by
  induction h with
  | refl => exact hs
  | perform operation _ hallowed ih =>
      exact Operation.after_of_ends (hperform operation hallowed _ ih)
  | change x _ hx ih => exact hchange _ x ih hx

/-- A stream stays built as it was but for its verification, and its source stays in a relation that
answers and changes respect. -/
theorem kept {S : σ → σ → Prop} (h : Reaches source allowed change s t) (hS : source.Respects S)
    (hchange : ∀ x y, change x y → S x y) (hs : s.stream.Ready) :
    ∃ verify, Kept S { s with stream := { s.stream with verify } } t := by
  induction h with
  | refl => exact ⟨s.stream.verify, .refl hS s⟩
  | @perform t operation _ _ ih =>
      obtain ⟨verify, ih⟩ := ih
      -- Only one operation changes how the stream is built.
      by_cases htoggle : ∃ verify, operation = .setVerify verify
      · obtain ⟨verify, rfl⟩ := htoggle
        exact ⟨verify, ⟨rfl, ih.stream.maxChunk, ih.stream.attempts, ih.stream.name,
          ih.stream.checksum, ih.stream.room, ih.stream.nesting⟩, ih.source, ih.events⟩
      · have hready : t.stream.Ready := ih.stream.ready hs
        refine ⟨verify, ih.trans hS (Operation.after_of_ends (Operation.kept_perform hS hready ?_))⟩
        exact fun verify hverify => htoggle ⟨verify, hverify⟩
  | change x _ hx ih =>
      obtain ⟨verify, ih⟩ := ih
      exact ⟨verify, ih.stream, hS.trans ih.source (hchange _ x hx), ih.events⟩

end Session.Reaches

end ChunkGuard
