import ChunkGuard.Seekable
import ChunkGuard.Stream.Read

/-!
# Operations on a stream

Everything that a caller can do with a stream, as data, so that runs of a stream are lists of
operations. An operation that reads into a buffer brings the buffer with it, and the session holds
the buffer afterwards, also when the operation failed. `Operation.run` goes on after a failure.
-/

namespace ChunkGuard

open Session

variable {σ : Type}

/-- A stream on a source as a stream with positioned reads. -/
def Stream.seekable [Comparing σ] (source : Source σ) : Seekable (Session σ) where
  seek := Stream.seek source
  position s := s.stream.position
  read offset size := do
    match ← Stream.read source offset size with
    | some count => return count
    | none => return -1
  buffer s := s.lent

/-- What a caller can do with a stream. -/
inductive Operation where
  | readByte
  | read (buffer : Bytes) (offset size : Nat)
  | readFully (buffer : Bytes) (offset size : Nat)
  | readAt (position : Int) (buffer : Bytes) (offset size : Nat)
  | readFullyAt (position : Int) (buffer : Bytes) (offset size : Nat)
  | seek (position : Int)
  | skip (count : Int)
  | switch (position : Int)
  | setVerify (verify : Bool)
  | mark (limit : Nat)
  | reset
  deriving DecidableEq, Repr

/-- What an operation gives. -/
inductive Outcome where
  | nothing
  | byte (byte : Option UInt8)
  | count (count : Int)
  | flag (flag : Bool)
  deriving DecidableEq, Repr

namespace Operation

/-- Lends the stream a buffer. -/
def lend (buffer : Bytes) : StreamM σ Unit := modify fun s => { s with lent := buffer }

/-- Carries out an operation. -/
def perform [Comparing σ] (source : Source σ) : Operation → StreamM σ Outcome
  | readByte => return .byte (← Stream.readByte source)
  | read buffer offset size => do
    lend buffer
    return .count (← (Stream.seekable source).read offset size)
  | readFully buffer offset size => do
    lend buffer
    (Stream.seekable source).readFully offset size
    return .nothing
  | readAt position buffer offset size => do
    lend buffer
    return .count (← (Stream.seekable source).readAt position offset size)
  | readFullyAt position buffer offset size => do
    lend buffer
    (Stream.seekable source).readFullyAt position offset size
    return .nothing
  | seek position => do
    Stream.seek source position
    return .nothing
  | skip count => return .count (← Stream.skip source count)
  | switch position => return .flag (← Session.switch source position)
  | setVerify verify => do
    Stream.setVerify verify
    return .flag (← getStream).needsChecksum
  | mark _ => throw .markUnsupported
  | reset => throw .markUnsupported

/-- Carries out an operation with another comparison. -/
def performBy (comparing : Bytes → StreamM σ (Option Mismatch)) (source : Source σ)
    (operation : Operation) : StreamM σ Outcome :=
  letI : Comparing σ := ⟨comparing⟩
  operation.perform source

/-- The session after an operation, however it ended. -/
def after (source : Source σ) (s : Session σ) (operation : Operation) : Session σ :=
  match operation.perform source s with
  | .ok _ s => s
  | .error _ s => s

/-- The session after operations in a row. -/
def run (source : Source σ) (s : Session σ) (operations : List Operation) : Session σ :=
  operations.foldl (after source) s

end Operation

end ChunkGuard
