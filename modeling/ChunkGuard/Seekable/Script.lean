import ChunkGuard.Seekable

/-!
# Scripted streams

A stream that reads from a script: each read takes the next answer of a list, and some seeks,
known by their number, fail. It notes the calls made to it.
-/

namespace ChunkGuard.Seekable

/-- A call to a scripted stream. -/
inductive Call where
  | seek (position : Int)
  | read (offset size : Nat)
  deriving DecidableEq, Repr

/-- The state of a scripted stream. -/
structure Script where
  /-- The answers to the reads still to come. A read without a number fails. -/
  reads : List (Option Int)
  /-- The numbers of the seeks that fail. -/
  failingSeeks : List Nat
  position : Int := 0
  buffer : Bytes := []
  /-- The number of seeks made. -/
  seeksMade : Nat := 0
  /-- The number of reads made. -/
  readsMade : Nat := 0
  calls : List Call := []
  deriving DecidableEq, Repr

namespace Script

/-- The error of a failing seek. -/
def seekFailed (position : Int) : StreamError :=
  .reported ⟨.checksumMismatch, "seek failed", some position⟩

/-- The error of a failing read. -/
def readFailed : StreamError := .reported ⟨.unsupportedOperation, "read failed", none⟩

/-- The error of a read outside of the buffer. -/
def badRange : StreamError := .reported ⟨.invalidArgument, "bad range", none⟩

/-- Goes to a position, also a negative one. -/
def seek (position : Int) : EStateM StreamError Script Unit := fun s =>
  let number := s.seeksMade
  let s := { s with seeksMade := number + 1, calls := s.calls ++ [Call.seek position] }
  if number ∈ s.failingSeeks then .error (seekFailed position) s
  else .ok () { s with position }

/-- Reads into a range of the buffer: at most as many bytes as the next answer says, all of them
the number of the read, counted from one. An answer that isn't positive is given as it is. -/
def read (offset size : Nat) : EStateM StreamError Script Int := fun s =>
  let number := s.readsMade
  let s := { s with readsMade := number + 1, calls := s.calls ++ [Call.read offset size] }
  match s.reads with
  | [] => .ok (-1) s
  | answer :: rest =>
    let s := { s with reads := rest }
    match answer with
    | none => .error readFailed s
    | some most =>
      if most ≤ 0 then .ok most s
      else if s.buffer.length < offset ∨ s.buffer.length - offset < size then .error badRange s
      else
        let count := min size most.toNat
        let bytes := List.replicate count (UInt8.ofNat (number + 1))
        .ok count
          { s with position := s.position + count, buffer := Bytes.write offset bytes s.buffer }

/-- The stream that reads from scripts. -/
def stream : Seekable Script := ⟨seek, Script.position, read, Script.buffer⟩

end Script

end ChunkGuard.Seekable
