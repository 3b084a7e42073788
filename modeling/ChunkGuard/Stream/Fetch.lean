import ChunkGuard.Stream.Basic

/-!
# Fetching chunks

A fetch reads the source once and, where checksums are verified, compares each chunk of what came
with its stored checksum. If one differs, the source is asked for another copy and read again, as
often as the stream's attempts allow. Before each further attempt the stream seeks to where it
was, for the other copy may have other chunks; that seek may itself fetch, which is how a fetch
can interrupt a fetch. The stream's `nesting`, which may be any number, bounds how deep.

The steps are written over the fetch that they would start (`fillWith`, `seekWith`) and are then
tied together by recursion on the nesting still allowed (`refill`). The comparison that they make is
a parameter as well (`Comparing`), which is `Stream.compare` unless another one is given: one that
fails in a session it doesn't expect tells in which sessions comparisons are begun at all.
-/

namespace ChunkGuard

/-- What fetched bytes are compared by. The result is the first chunk that differs from its checksum,
if there is one. -/
class Comparing (σ : Type) where
  compare (bytes : Bytes) : StreamM σ (Option Mismatch)

namespace Stream

open Session

variable {σ : Type}

/-- Where fetched bytes go. -/
inductive Target where
  /-- The start of the window. -/
  | window
  /-- The lent buffer, from an offset on. -/
  | lent (offset : Nat)
  deriving DecidableEq, Repr

/-- The session with fetched bytes where they go. -/
def Target.put (target : Target) (bytes : Bytes) (s : Session σ) : Session σ :=
  match target with
  | .window => { s with stream := { s.stream with window := Bytes.write 0 bytes s.stream.window } }
  | .lent offset => { s with lent := Bytes.write offset bytes s.lent }

/-- Puts fetched bytes where they go. -/
def deliver (target : Target) (bytes : Bytes) : StreamM σ Unit := modify (target.put bytes)

/-- The stream with the checksums that came with a reply, over those of earlier replies, where it
verifies. -/
def keeping (sums : Bytes) (s : Stream) : Stream :=
  { s with
    sums := if s.needsChecksum then Bytes.write 0 (sums.take s.sums.length) s.sums else s.sums }

/-- Keeps the checksums that came with a reply. -/
def keepSums (sums : Bytes) : StreamM σ Unit := modifyStream (keeping sums)

/-- Compares the chunks of some bytes with their stored checksums, from an index on. The result is
the first difference, and the running checksum, which is reset after each chunk. -/
def compareChunks (maxChunk : Nat) (sums : Bytes) (start : Int) :
    (chunks index : Nat) → Bytes → Checksum → Option Mismatch × Checksum
  | 0, _, _, checksum => (none, checksum)
  | chunks + 1, index, bytes, checksum =>
    let taken := checksum.update (bytes.take maxChunk)
    let expected := Stored.loadAt index sums
    if expected ≠ taken.value then
      (some ⟨start + (index * maxChunk : Nat), expected, taken.value⟩, taken.reset)
    else
      compareChunks maxChunk sums start chunks (index + 1) (bytes.drop maxChunk) taken.reset

/-- Compares fetched bytes with the checksums that came with them, where the stream verifies. There
have to be enough. -/
def compare (bytes : Bytes) : StreamM σ (Option Mismatch) := do
  let s ← getStream
  if ¬ s.needsChecksum then return none
  let chunks := Chunk.count bytes.length s.maxChunk
  if s.sums.length < chunks * sumWidth then throw .expectation
  match s.checksum with
  | none => return none
  | some checksum =>
    let (mismatch, checksum) := compareChunks s.maxChunk s.sums s.next chunks 0 bytes checksum
    modifyStream fun s => { s with checksum := some checksum }
    return mismatch

instance : Comparing σ := ⟨compare⟩

/-- What comes of reading the source once. -/
inductive Attempt where
  /-- The data has ended. -/
  | ended
  /-- So many bytes came, and they passed. -/
  | passed (count : Nat)
  /-- These bytes came, and one of their chunks differs from its checksum. -/
  | damaged (bytes : Bytes) (mismatch : Mismatch)
  deriving DecidableEq, Repr

/-- Reads the source once. What came is in its place even where it turns out to be damaged, but
only what passed moves the stream forward. -/
def tryOnce [Comparing σ] (source : Source σ) (target : Target) (size : Nat) : StreamM σ Attempt := do
  let s ← getStream
  match ← request source ⟨s.next, size, s.capacity⟩ with
  | .ended _ => return .ended
  | .chunk data sums =>
    deliver target data
    keepSums sums
    if data.isEmpty then return .ended
    match ← Comparing.compare data with
    | none =>
      modifyStream fun s => { s with next := s.next + data.length }
      return .passed data.length
    | some mismatch => return .damaged data mismatch

/-- Reads the source until a reply passes, at most as often as there are attempts left, and gives
the number of bytes fetched, or nothing at the end of the data. `reseek` takes the stream back to
a position after a change of copies. -/
def attempt [Comparing σ] (source : Source σ) (reseek : Int → StreamM σ Unit) (target : Target) (size : Nat) :
    (attempts : Nat) → StreamM σ (Option Nat)
  | 0 => throw .noAttempts
  | left + 1 => do
    let s ← getStream
    match ← tryOnce source target size with
    | .ended => return none
    | .passed count => return some count
    | .damaged data mismatch =>
      tell [.corrupted s.name s.next (s.next + data.length) data]
      if left = 0 then throw (.corrupted s.name mismatch)
      -- The copy that gave these bytes would only give them again.
      unless ← switch source s.next do throw (.corrupted s.name mismatch)
      tell [.switched s.name s.next left]
      reseek s.next
      attempt source reseek target size left

/-- Empties the window. -/
def clear : StreamM σ Unit := modifyStream fun s => { s with filled := 0, cursor := 0 }

/-- Empties the window and fetches. -/
def fetchWith [Comparing σ] (source : Source σ) (reseek : Int → StreamM σ Unit) (target : Target)
    (size : Nat) : StreamM σ (Option Nat) := do
  clear
  attempt source reseek target size (← getStream).attempts

/-- Fills the window, which has to be used up, by one fetch. -/
def fillWith (fetch : StreamM σ (Option Nat)) : StreamM σ Unit := do
  let s ← getStream
  if s.cursor < s.filled then throw .expectation
  let count ← fetch
  modifyStream fun s => { s with filled := count.getD 0 }

/-- Hands out `size` bytes to nobody, filling the window as needed, up to the end of the data.
`fuel` bounds the number of steps. -/
def discardWith (fill : StreamM σ Unit) : (fuel : Nat) → (size : Int) → StreamM σ Unit
  | 0, size => if 0 < size then throw .nestedTooDeep else return
  | fuel + 1, size => do
    if size ≤ 0 then return
    let s ← getStream
    if s.filled ≤ s.cursor then
      fill
      if (← getStream).filled = 0 then return
    let s ← getStream
    let step := min ((s.filled : Int) - s.cursor) size
    modifyStream fun s => { s with cursor := ((s.cursor : Int) + step).toNat }
    discardWith fill fuel (size - step)

/-- Steps enough to hand out `size` bytes, given that each failover takes back less than a window
of them, and that there are no more of them than may interrupt each other. -/
def discardFuel (s : Stream) (size : Int) : Nat :=
  size.toNat + (s.nesting + 1) * (s.maxChunk + 1)

/-- Goes to a position. A negative one is ignored. Inside of the window only the cursor moves.
Otherwise the source is read from the start of the position's chunk, so that everything before the
position in its chunk is verified as well. -/
def seekWith (source : Source σ) (fill : StreamM σ Unit) (position : Int) : StreamM σ Unit := do
  if position < 0 then return
  let s ← getStream
  let start := s.next - s.filled
  if start ≤ position ∧ position < s.next then
    modifyStream fun s => { s with cursor := (position - start).toNat }
  else
    let next := source.start (← get).source position
    modifyStream fun s =>
      { s with filled := 0, cursor := 0, next, checksum := s.checksum.map Checksum.reset }
    if position < next then throw .expectation
    discardWith fill (s.discardFuel (position - next)) (position - next)

/-- Fills the window, letting failovers interrupt each other as often as given. -/
def refill [Comparing σ] (source : Source σ) : (nesting : Nat) → StreamM σ Unit
  | 0 => throw .nestedTooDeep
  | nesting + 1 => do
    let s ← getStream
    fillWith (fetchWith source (seekWith source (refill source nesting)) .window s.maxChunk)

/-- Goes to a position, letting failovers interrupt each other as often as given. -/
def seekNested [Comparing σ] (source : Source σ) (nesting : Nat) (position : Int) : StreamM σ Unit :=
  seekWith source (refill source nesting) position

/-- Fetches into the lent buffer. -/
def fetchLent [Comparing σ] (source : Source σ) (offset size : Nat) : StreamM σ (Option Nat) := do
  fetchWith source (seekNested source ((← getStream).nesting + 1)) (.lent offset) size

/-- Fills the window. -/
def fill [Comparing σ] (source : Source σ) : StreamM σ Unit := do refill source ((← getStream).nesting + 2)

end Stream

end ChunkGuard
