import ChunkGuard.Checksum.Running
import ChunkGuard.Checksum.Stored
import ChunkGuard.Chunk
import ChunkGuard.Focus
import ChunkGuard.Source

/-!
# The state of a stream

A stream reads a source chunk by chunk into its window and hands the bytes out from there. Of the
window's bytes the first `filled` are data and the first `cursor` of those are handed out;
`next` is where the source will be read next, so the window covers the positions from
`next - filled` on to `next`. A session is a stream together with its source, the buffer that a
caller lent it for a read, and the events told to the log.
-/

namespace ChunkGuard

/-- What can be chosen about a stream. -/
structure Options where
  /-- Whether checksums are verified. -/
  verify : Bool := true
  /-- The number of data bytes that one checksum covers, and the size of the window. -/
  maxChunk : Nat := 512
  /-- The width of a stored checksum. -/
  sumWidth : Nat := 4
  /-- How often one fetch may read the source. -/
  attempts : Nat := 3
  /-- The name of the data in messages. -/
  name : String := ""
  /-- How deep failovers may interrupt each other, after the one that interrupts a fetch. -/
  nesting : Nat := 4095
  deriving DecidableEq, Repr

/-- A stream apart from its source. -/
structure Stream where
  verify : Bool
  maxChunk : Nat
  attempts : Nat
  name : String
  nesting : Nat
  /-- The running checksum, if chunks can be verified at all. -/
  checksum : Option Checksum
  /-- The bytes that were ever put into the window. The rest of the window is zeros. -/
  window : Bytes := []
  /-- The stored checksums that came with the chunks fetched last, over those of earlier fetches.
  Where nothing can be verified there is no room for any. -/
  sums : Bytes
  /-- The next byte of the window to hand out. -/
  cursor : Nat := 0
  /-- The number of bytes of data in the window. -/
  filled : Nat := 0
  /-- The position of the source that is read next. -/
  next : Int := 0
  deriving DecidableEq, Repr

namespace Stream

/-- A stream with the given options, or the first thing wrong with them. The width of checksums
matters only where there is a checksum. -/
def ofOptions? (checksum : Option Algorithm) (o : Options) : Except StreamError Stream := do
  if o.maxChunk = 0 then throw .emptyChunks
  if o.attempts = 0 then throw .noAttempts
  if checksum.isSome ∧ o.sumWidth ≠ sumWidth then throw .unsupportedWidth
  return {
    verify := o.verify, maxChunk := o.maxChunk, attempts := o.attempts, name := o.name
    nesting := o.nesting
    checksum := checksum.map Checksum.ofAlgorithm
    sums := if checksum.isSome then Bytes.zeros (chunksPerRead * o.sumWidth) else [] }

/-- Whether what is fetched now is verified. -/
def needsChecksum (s : Stream) : Bool := s.verify && s.checksum.isSome

/-- The number of bytes that can be handed out without a fetch, as a word of 64 bits. -/
def available (s : Stream) : Nat := Word.ofInt ((s.filled : Int) - s.cursor)

/-- The position of the next byte to hand out. -/
def position (s : Stream) : Int := s.next - ((s.filled : Int) - s.cursor)

/-- The room for checksums in a request, if they are asked for. -/
def capacity (s : Stream) : Option Nat := if s.needsChecksum then some s.sums.length else none

end Stream

/-- A stream at work on a source. -/
structure Session (σ : Type) where
  stream : Stream
  source : σ
  /-- The buffer that the caller of a read lent. -/
  lent : Bytes := []
  /-- The events told to the log, the first one first. -/
  events : List Log.Event := []

/-- Work of a stream. What it did stays done when it fails. -/
abbrev StreamM (σ : Type) : Type → Type := EStateM StreamError (Session σ)

namespace Session

variable {σ : Type}

/-- The stream as it is. -/
def getStream : StreamM σ Stream := return (← get).stream

/-- Changes the stream. -/
def modifyStream (f : Stream → Stream) : StreamM σ Unit :=
  modify fun s => { s with stream := f s.stream }

/-- Tells events to the log. -/
def tell (events : List Log.Event) : StreamM σ Unit :=
  modify fun s => { s with events := s.events ++ events }

/-- Asks the source. -/
def request (source : Source σ) (r : Request) : StreamM σ Reply :=
  focus Session.source (fun state s => { s with source := state }) (source.read r)

/-- Looks for another copy of the data at a position. -/
def switch (source : Source σ) (position : Int) : StreamM σ Bool := do
  let s ← get
  let ((found, events), state) := source.switch position s.source
  set { s with source := state }
  tell events
  return found

end Session

end ChunkGuard
