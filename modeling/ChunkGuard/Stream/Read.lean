import ChunkGuard.Stream.Fetch

/-!
# Reading a stream

The operations that move a stream forward or to another place: reading a byte, reading into the
lent buffer, skipping and seeking.
-/

namespace ChunkGuard.Stream

open Session

variable {σ : Type}

/-- Hands out the next byte, or nothing at the end of the data. -/
def readByte [Comparing σ] (source : Source σ) : StreamM σ (Option UInt8) := do
  let s ← getStream
  if s.filled ≤ s.cursor then fill source
  let s ← getStream
  if s.filled ≤ s.cursor then return none
  modifyStream fun s => { s with cursor := s.cursor + 1 }
  return some (s.window.getD s.cursor 0)

/-- Hands out bytes of the window to the lent buffer. -/
def copy (offset size : Nat) : StreamM σ Unit :=
  modify fun s =>
    { s with
      lent := Bytes.write offset (Bytes.padded s.stream.cursor size s.stream.window) s.lent
      stream := { s.stream with cursor := s.stream.cursor + size } }

/-- Reads into the lent buffer with at most one fetch, and gives the number of bytes read, or
nothing at the end of the data. With an empty window, a read of a chunk or more goes past it. -/
def readOnce [Comparing σ] (source : Source σ) (offset size : Nat) : StreamM σ (Option Nat) := do
  let s ← getStream
  if s.available = 0 then
    -- Whole chunks need no stop in the window.
    if s.maxChunk ≤ size then fetchLent source offset size
    else
      fill source
      let filled := (← getStream).filled
      if filled = 0 then return none
      copy offset (min filled size)
      return some (min filled size)
  else
    copy offset (min s.available size)
    return some (min s.available size)

/-- Reads into the lent buffer until the range is full or the data ends, and gives the number of
bytes read. `fuel` bounds the number of fetches; the size of the range is enough. -/
def readUpTo [Comparing σ] (source : Source σ) : (fuel offset size : Nat) → StreamM σ Nat
  | 0, _, _ => return 0
  | fuel + 1, offset, size => do
    match ← readOnce source offset size with
    | none => return 0
    | some count =>
      if size ≤ count then return count
      let more ← readUpTo source fuel (offset + count) (size - count)
      return count + more

/-- Reads into a range of the lent buffer, which has to lie inside of it. At the end of the data,
and only there, the result is nothing. -/
def read [Comparing σ] (source : Source σ) (offset size : Nat) : StreamM σ (Option Nat) := do
  let room := (← get).lent.length
  if room < offset ∨ room - offset < size then throw .outsideBuffer
  if size = 0 then return some 0
  let count ← readUpTo source size offset size
  return if count = 0 then none else some count

/-- Goes to a position. -/
def seek [Comparing σ] (source : Source σ) (position : Int) : StreamM σ Unit := do
  seekNested source ((← getStream).nesting + 2) position

/-- Goes forward, past the end of the data if need be, but never past the greatest position.
The result is the number asked for, or zero for one that isn't positive. -/
def skip [Comparing σ] (source : Source σ) (count : Int) : StreamM σ Int := do
  if count ≤ 0 then return 0
  let position := (← getStream).position
  seek source (if Word.maxSigned - position < count then Word.maxSigned else position + count)
  return count

/-- Whether a position can be marked and gone back to. It can't. -/
def marksSupported : Bool := false

/-- Turns verification on or off for what is fetched from now on. -/
def setVerify (verify : Bool) : StreamM σ Unit := modifyStream fun s => { s with verify }

end ChunkGuard.Stream
