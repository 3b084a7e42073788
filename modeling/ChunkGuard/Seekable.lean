import ChunkGuard.Bytes
import ChunkGuard.Error

/-!
# Streams with positioned reads

Whatever can be sought in and read from has positioned reads as well. `Seekable.readAt` goes to a
position, reads, and goes back, also when the read fails. `Seekable.readFully` and
`Seekable.readFullyAt` read until a range is full.
-/

namespace ChunkGuard

/-- A stream with states in `τ` that reads into a buffer which is part of the state. -/
structure Seekable (τ : Type) where
  /-- Goes to a position. -/
  seek : Int → EStateM StreamError τ Unit
  /-- The position. -/
  position : τ → Int
  /-- Reads into a range of the buffer and gives the number of bytes read, which isn't positive
  at the end of the data. -/
  read : (offset size : Nat) → EStateM StreamError τ Int
  /-- The buffer. -/
  buffer : τ → Bytes

namespace Seekable

variable {τ : Type} (s : Seekable τ)

/-- Reads parts of a range by `part`, which is told how much was read before, until the range is
full. `fuel` bounds the number of parts; the size of the range is enough. -/
def readParts (part : (done offset size : Nat) → EStateM StreamError τ Int) :
    (fuel done offset size : Nat) → EStateM StreamError τ Unit
  | 0, _, _, _ => return
  | fuel + 1, done, offset, size => do
    if size = 0 then return
    let count ← part done offset size
    if count ≤ 0 then throw .prematureEnd
    readParts part fuel (done + count.toNat) (offset + count.toNat) (size - count.toNat)

/-- Reads a whole range from the position on. -/
def readFully (offset size : Nat) : EStateM StreamError τ Unit :=
  readParts (fun _ => s.read) size 0 offset size

/-- Reads at a position and goes back to where the stream was. A range outside of the buffer and
an empty one are settled first, without going anywhere. An error while going back takes the place
of any other outcome. -/
def readAt (position : Int) (offset size : Nat) : EStateM StreamError τ Int := do
  let state ← get
  let room := (s.buffer state).length
  if room < offset ∨ room - offset < size then throw .outsideBuffer
  if size = 0 then return 0
  let saved := s.position state
  let count ←
    try
      s.seek position
      s.read offset size
    catch e =>
      s.seek saved
      throw e
  s.seek saved
  return count

/-- Reads a whole range at a position, going back to where the stream was after every part. -/
def readFullyAt (position : Int) (offset size : Nat) : EStateM StreamError τ Unit :=
  readParts (fun done => s.readAt (position + done)) size 0 offset size

end Seekable

end ChunkGuard
