import ChunkGuard.Checksum.Running
import ChunkGuard.Checksum.Stored
import ChunkGuard.Chunk
import ChunkGuard.Focus
import ChunkGuard.Storage

/-!
# Checksum sidecars

The sidecar of some data holds the stored checksum of each of its chunks, in order.
`Sidecar.ofBytes` is that string. `Sidecar.write` makes it in a storage, reading the data chunk by
chunk and using a running checksum that may have been used before.
-/

namespace ChunkGuard.Sidecar

/-- The chunks of some data, the last one perhaps short. -/
def chunks (chunk : Nat) (data : Bytes) : List Bytes :=
  (List.range (Chunk.count data.length chunk)).map fun index =>
    Bytes.slice (index * chunk) chunk data

/-- The sidecar of some data. -/
def ofBytes (a : Algorithm) (chunk : Nat) (data : Bytes) : Bytes :=
  (chunks chunk data).flatMap fun bytes => Stored.store (a.sum bytes)

/-- Why a sidecar couldn't be written. -/
inductive Failure where
  | stream (error : StreamError)
  /-- A buffer for a chunk would be longer than any can be. -/
  | tooLong
  deriving DecidableEq, Repr

/-- What a caller is told of a failure. -/
def Failure.message : Failure → String
  | stream error => error.report.message
  | tooLong => "cannot create std::vector larger than max_size()"

/-- What writing a sidecar works on: the data, the storage for the checksums, and the running
checksum. -/
structure Desk (ρ : Type := Storage) where
  data : ρ
  target : ρ
  checksum : Checksum
  deriving DecidableEq, Repr

variable {ρ : Type} [Storing ρ]

/-- Works on the data. -/
def onData {α : Type} (m : EStateM StreamError ρ α) : EStateM StreamError (Desk ρ) α :=
  focus Desk.data (fun data desk => { desk with data }) m

/-- Works on the storage for the checksums. -/
def onTarget {α : Type} (m : EStateM StreamError ρ α) : EStateM StreamError (Desk ρ) α :=
  focus Desk.target (fun target desk => { desk with target }) m

/-- Writes the checksum of one chunk and leaves the running checksum fresh. Its place in the target
is a word. -/
def writeChunk (chunk index : Nat) : EStateM StreamError (Desk ρ) Unit := do
  let offset := index * chunk
  let size := min chunk (Storing.size (← get).data - offset)
  let bytes ← onData (Storing.read offset size)
  let checksum := (← get).checksum.update bytes
  modify fun desk => { desk with checksum := checksum.reset }
  onTarget (Storing.write (sumWidth * index % Word.count) (Stored.store checksum.value))

/-- Writes the checksums of so many chunks, from one on. -/
def writeChunks (chunk : Nat) : (left first : Nat) → EStateM StreamError (Desk ρ) Unit
  | 0, _ => pure ()
  | left + 1, first => do
    writeChunk chunk first
    writeChunks chunk left (first + 1)

/-- Makes the target the sidecar of the data. Chunks of no bytes are refused before anything is
touched, chunks that no buffer has room for after the target was resized. The size of the target is
a word. -/
def write (chunk : Nat) : EStateM Failure (Desk ρ) Unit := do
  if chunk = 0 then throw (.stream .emptySidecarChunks)
  let count := Chunk.count (Storing.size (← get).data) chunk
  (onTarget (Storing.resize (sumWidth * count % Word.count))).adaptExcept .stream
  if Word.half ≤ chunk then throw .tooLong
  modify fun desk => { desk with checksum := desk.checksum.reset }
  (writeChunks chunk count 0).adaptExcept .stream

end ChunkGuard.Sidecar
