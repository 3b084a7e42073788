import ChunkGuard.Proofs.Attempt

/-!
# Operations made of others

Complete and positioned reads, skips and the operations as data are made of four programs of a
stream: reading a byte, reading into the lent buffer, seeking, and looking for another copy. What
these keep, every operation keeps (`Operation.keeps_perform`).
-/

namespace ChunkGuard

namespace Seekable

variable {τ : Type} {I : τ → Prop} {s : Seekable τ}

/-- A read in parts keeps what the reads of the parts keep. -/
theorem keeps_readParts {part : Nat → Nat → Nat → EStateM StreamError τ Int}
    (hpart : ∀ done offset size, Keeps I (part done offset size)) (fuel done offset size : Nat) :
    Keeps I (readParts part fuel done offset size) := by
  induction fuel generalizing done offset size with
  | zero => exact keeps_pure _
  | succ fuel ih =>
      intro t ht
      simp only [readParts, ends_ite, ends_bind, ends_pure, ends_throw]
      refine ⟨fun _ => ht, fun _ => (hpart done offset size t ht).mono (fun count u hu => ?_) ?_⟩
      · exact ⟨fun _ => hu, fun _ => ih _ _ _ u hu⟩
      · exact fun _ _ hu => hu

/-- A complete read keeps what reads keep. -/
theorem keeps_readFully (hread : ∀ offset size, Keeps I (s.read offset size))
    (offset size : Nat) : Keeps I (s.readFully offset size) :=
  keeps_readParts (fun _ => hread) _ _ _ _

/-- A positioned read keeps what seeks and reads keep, though it fails. -/
theorem keeps_readAt (hseek : ∀ position, Keeps I (s.seek position))
    (hread : ∀ offset size, Keeps I (s.read offset size)) (position : Int) (offset size : Nat) :
    Keeps I (s.readAt position offset size) := by
  intro t ht
  simp only [readAt, ends_ite, ends_bind, ends_get, ends_pure, ends_throw, ends_tryCatch]
  refine ⟨fun _ => ht, fun _ => ⟨fun _ => ht, fun _ => ?_⟩⟩
  refine (hseek position t ht).mono (fun _ u hu => ?_) (fun e u hu => ?_)
  · refine (hread offset size u hu).mono (fun count v hv => ?_) (fun e v hv => ?_)
    · exact hseek _ v hv
    · exact hseek _ v hv
  · exact hseek _ u hu

/-- A complete positioned read keeps what seeks and reads keep, though it fails. -/
theorem keeps_readFullyAt (hseek : ∀ position, Keeps I (s.seek position))
    (hread : ∀ offset size, Keeps I (s.read offset size)) (position : Int) (offset size : Nat) :
    Keeps I (s.readFullyAt position offset size) :=
  keeps_readParts (fun done => keeps_readAt hseek hread (position + done)) _ _ _ _

end Seekable

variable {σ : Type} {I : Session σ → Prop} {source : Source σ}

/-- A read as part of others tells by its number whether the data has ended. -/
theorem Stream.ends_seekable_read {offset size : Nat} {s : Session σ}
    {Q : Int → Session σ → Prop} {E : StreamError → Session σ → Prop} :
    Ends ((Stream.seekable source).read offset size) s Q E ↔
      Ends (Stream.read source offset size) s
        (fun count t => Q (count.elim (-1) fun n => (n : Int)) t) E := by
  simp only [Stream.seekable, ends_bind]
  refine ⟨fun h => h.mono (fun count t ht => ?_) (fun _ _ ht => ht),
    fun h => h.mono (fun count t ht => ?_) (fun _ _ ht => ht)⟩
  · cases count <;> exact ht
  · cases count <;> exact ht

/-- A read of the seekable stream keeps what a read of the stream keeps. -/
theorem Stream.keeps_seekable_read (hread : ∀ offset size, Keeps I (Stream.read source offset size))
    (offset size : Nat) : Keeps I ((Stream.seekable source).read offset size) := by
  refine (hread offset size).bind fun count => ?_
  cases count with
  | none => exact keeps_pure _
  | some count => exact keeps_pure _

/-- A seek keeps what seeks at any nesting keep. -/
theorem Stream.keeps_seek
    (hseek : ∀ nesting position, Keeps I (Stream.seekNested source (nesting + 1) position))
    (position : Int) : Keeps I (Stream.seek source position) := by
  intro s hs
  rw [ends_seek]
  exact hseek _ position s hs

/-- A skip keeps what a seek keeps. -/
theorem Stream.keeps_skip (hseek : ∀ position, Keeps I (Stream.seek source position))
    (count : Int) : Keeps I (Stream.skip source count) := by
  intro s hs
  simp only [Stream.skip, ends_ite, ends_bind, ends_pure, Session.ends_getStream]
  refine ⟨fun _ => hs, fun _ => ?_⟩
  exact (hseek _ s hs).mono (fun _ _ ht => ht) (fun _ _ ht => ht)

/-- The buffer that an operation brings with it. -/
def Operation.buffer? : Operation → Option Bytes
  | read buffer _ _ => some buffer
  | readFully buffer _ _ => some buffer
  | readAt _ buffer _ _ => some buffer
  | readFullyAt _ buffer _ _ => some buffer
  | _ => none

/-- What the programs of a stream keep, an operation keeps. -/
theorem Operation.keeps_perform (hbyte : Keeps I (Stream.readByte source))
    (hread : ∀ offset size, Keeps I (Stream.read source offset size))
    (hseek : ∀ position, Keeps I (Stream.seek source position))
    (hswitch : ∀ position, Keeps I (Session.switch source position))
    (operation : Operation)
    (hlend : ∀ buffer, operation.buffer? = some buffer → ∀ s, I s → I { s with lent := buffer })
    (hverify : ∀ verify, operation = .setVerify verify →
      ∀ s, I s → I { s with stream := { s.stream with verify } }) :
    Keeps I (operation.perform source) := by
  have hread' := Stream.keeps_seekable_read hread
  cases operation with
  | readByte => exact hbyte.bind fun _ => keeps_pure _
  | read buffer offset size =>
      exact (keeps_modify (hlend buffer rfl)).bind fun _ =>
        (hread' offset size).bind fun _ => keeps_pure _
  | readFully buffer offset size =>
      exact (keeps_modify (hlend buffer rfl)).bind fun _ =>
        (Seekable.keeps_readFully hread' offset size).bind fun _ => keeps_pure _
  | readAt position buffer offset size =>
      exact (keeps_modify (hlend buffer rfl)).bind fun _ =>
        (Seekable.keeps_readAt hseek hread' position offset size).bind fun _ => keeps_pure _
  | readFullyAt position buffer offset size =>
      exact (keeps_modify (hlend buffer rfl)).bind fun _ =>
        (Seekable.keeps_readFullyAt hseek hread' position offset size).bind fun _ => keeps_pure _
  | seek position => exact (hseek position).bind fun _ => keeps_pure _
  | skip count => exact (Stream.keeps_skip hseek count).bind fun _ => keeps_pure _
  | switch position => exact (hswitch position).bind fun _ => keeps_pure _
  | setVerify verify =>
      exact (keeps_modify (hverify verify rfl)).bind fun _ =>
        Keeps.bind (fun _ h => h) fun _ => keeps_pure _
  | mark limit => exact keeps_throw _
  | reset => exact keeps_throw _

/-- The session after an operation satisfies what the operation ends with in either way. -/
theorem Operation.after_of_ends {operation : Operation} {s : Session σ}
    (h : Ends (operation.perform source) s (fun _ => I) (fun _ => I)) :
    I (operation.after source s) := by
  simp only [Operation.after]
  cases hm : operation.perform source s with
  | ok a t => exact h.ok hm
  | error e t => exact h.error hm

end ChunkGuard
