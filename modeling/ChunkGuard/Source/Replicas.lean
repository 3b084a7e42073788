import ChunkGuard.Chunk
import ChunkGuard.Focus
import ChunkGuard.Source
import ChunkGuard.Storage

/-!
# Replicated storages

A source over copies of the same data, each a storage for the data and one for its checksum
sidecar, which may be files or in memory. One replica is read at a time. When it is found damaged
it is marked, and the next replica without a mark takes its place, the first one following the last.
Marks are never taken back, so every replica is tried at most once.
-/

namespace ChunkGuard

/-- A copy of the data and the sidecar with its checksums. -/
structure Replica (ρ : Type := Storage) where
  data : ρ
  sums : ρ
  deriving DecidableEq, Repr

/-- Replicas with the size of their chunks, the index of the one being read, and the indices of
those that were marked. -/
structure Replicas (ρ : Type := Storage) where
  list : List (Replica ρ)
  chunk : Nat
  current : Nat := 0
  marked : List Nat := []
  deriving DecidableEq, Repr

namespace Replicas

variable {ρ : Type}

/-- A set of replicas, each with its storages, whose chunks have a size. -/
def ofList? (list : List (Option ρ × Option ρ)) (chunk : Nat) :
    Except StreamError (Replicas ρ) := do
  if list.isEmpty then throw .noReplicas
  if chunk = 0 then throw .emptyChunks
  let list ← list.mapM fun
    | (some data, some sums) => .ok ⟨data, sums⟩
    | _ => .error .incompleteReplica
  return { list, chunk }

/-- Changes the replica at an index. -/
def alter (index : Nat) (f : Replica ρ → Replica ρ) (s : Replicas ρ) : Replicas ρ :=
  { s with list := s.list.modify index f }

/-- The start of the chunk that holds a position. -/
def start (s : Replicas ρ) (position : Int) : Int := Chunk.start s.chunk position

/-- The replicas other than the current one, from the next one on around to the one before. -/
def others (s : Replicas ρ) : List Nat :=
  (List.range (s.list.length - 1)).map fun step => (s.current + 1 + step) % s.list.length

/-- Marks the current replica and goes to the next one without a mark. -/
def switch (position : Int) (s : Replicas ρ) : (Bool × List Log.Event) × Replicas ρ :=
  let marked := if s.current ∈ s.marked then s.marked else s.current :: s.marked
  match s.others.find? (· ∉ marked) with
  | some next =>
    ((true, [.replicaFailed s.current position next]), { s with marked, current := next })
  | none => ((false, [.noReplicaLeft position]), { s with marked })

variable [Storing ρ]

/-- The replica at an index. Where there is none, both storages are empty. -/
def get (s : Replicas ρ) (index : Nat) : Replica ρ :=
  s.list.getD index { data := Storing.empty, sums := Storing.empty }

/-- The size of the data of the current replica. -/
def size (s : Replicas ρ) : Nat := Storing.size (s.get s.current).data

/-- The size of the data of all replicas together. -/
def totalSize (s : Replicas ρ) : Nat := s.list.foldl (fun n r => n + Storing.size r.data) 0

/-- Reads data of the current replica. -/
def readData (offset size : Nat) : EStateM StreamError (Replicas ρ) Bytes :=
  focus (fun s => (s.get s.current).data)
    (fun data s => s.alter s.current fun r => { r with data })
    (Storing.read offset size)

/-- Reads the sidecar of the current replica. -/
def readSums (offset size : Nat) : EStateM StreamError (Replicas ρ) Bytes :=
  focus (fun s => (s.get s.current).sums)
    (fun sums s => s.alter s.current fun r => { r with sums })
    (Storing.read offset size)

/-- Reads whole chunks with their checksums, at most `size` bytes and `capacity` bytes of
checksums. The last chunk of the data may be short. Nothing is read before it is known that all of
it is there. -/
def readChunks (offset size capacity : Nat) : EStateM StreamError (Replicas ρ) Reply := do
  let s ← MonadState.get
  if Chunk.offset s.chunk offset ≠ 0 then throw .unaligned
  let chunks := min (size / s.chunk) (capacity / sumWidth)
  if chunks = 0 then throw .belowChunk
  let count := min (chunks * s.chunk) (s.size - offset)
  let first := offset / s.chunk
  let sums := Chunk.count count s.chunk
  -- Both reads below are inside of their storages.
  if Storing.size (s.get s.current).sums < (first + sums) * sumWidth then throw .malformed
  let data ← readData offset count
  let stored ← readSums (first * sumWidth) (sums * sumWidth)
  return .chunk data stored

/-- Answers a request. Outside of the data there is nothing to read; without room for checksums
any part of the data may be read. -/
def read (request : Request) : EStateM StreamError (Replicas ρ) Reply := do
  let s ← MonadState.get
  if request.position < 0 ∨ s.size ≤ request.position.toNat then return .ended 1
  let offset := request.position.toNat
  match request.capacity with
  | none => return .chunk (← readData offset (min request.size (s.size - offset))) []
  | some capacity => readChunks offset request.size capacity

/-- The source that reads replicas. -/
def source : Source (Replicas ρ) := ⟨read, start, switch⟩

end Replicas

end ChunkGuard
