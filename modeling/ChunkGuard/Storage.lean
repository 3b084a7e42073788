import ChunkGuard.Bytes
import ChunkGuard.Error

/-!
# Storages

A storage is a string of bytes that is read at any offset, and counts the reads asked of it. A
read that passes the end fails and counts as well. `Storage.read_eq_ok` says which bytes a read
inside of the storage gives.

Files serve as storages too, so what works on storages takes them by `Storing`, which lists what a
storage can be asked.
-/

namespace ChunkGuard

/-- What a storage can be asked: its size, and to be read, written and resized at any offset. What
was done stays done when it fails. -/
class Storing (ρ : Type) where
  /-- A storage without bytes. -/
  empty : ρ
  size : ρ → Nat
  read (offset size : Nat) : EStateM StreamError ρ Bytes
  write (offset : Nat) (src : Bytes) : EStateM StreamError ρ Unit
  resize (n : Nat) : EStateM StreamError ρ Unit

/-- Bytes held in memory or in a file, with the number of reads asked for so far. -/
structure Storage where
  bytes : Bytes
  medium : Medium := .memory
  reads : Nat := 0
  deriving DecidableEq, Repr

namespace Storage

/-- The number of bytes stored. -/
def size (s : Storage) : Nat := s.bytes.length

/-- Reads `size` bytes at `offset`. All of them have to be there. -/
def read (offset size : Nat) : EStateM StreamError Storage Bytes := fun s =>
  let s := { s with reads := s.reads + 1 }
  if offset > s.size ∨ size > s.size - offset then .error (.pastEnd s.medium) s
  else .ok (Bytes.slice offset size s.bytes) s

/-- Lays bytes over the storage at an offset. It grows as needed, zeros filling a gap. -/
def write (offset : Nat) (src : Bytes) (s : Storage) : Storage :=
  { s with bytes := Bytes.write offset src s.bytes }

/-- Cuts the storage off or fills it up with zeros. -/
def resize (n : Nat) (s : Storage) : Storage := { s with bytes := Bytes.resize n s.bytes }

instance : Storing Storage where
  empty := { bytes := [] }
  size := size
  read := read
  write offset src := modify (write offset src)
  resize n := modify (resize n)

/-- The mask that damage is done with. -/
def damageMask : UInt8 := 0x5A

/-- Damages the byte at an offset, if there is one. -/
def damage? (offset : Nat) (s : Storage) : Option Storage :=
  if offset < s.size then some { s with bytes := Bytes.flip offset damageMask s.bytes } else none

/-- A read inside of the storage gives the bytes there and counts. -/
theorem read_eq_ok {offset size : Nat} {s : Storage} (h : offset + size ≤ s.size) :
    read offset size s =
      .ok (Bytes.slice offset size s.bytes) { s with reads := s.reads + 1 } := by
  have h' : ¬ (offset > s.size ∨ size > s.size - offset) := by omega
  exact if_neg h'

/-- A read that passes the end fails and counts. -/
theorem read_eq_error {offset size : Nat} {s : Storage} (h : s.size < offset + size) :
    read offset size s = .error (.pastEnd s.medium) { s with reads := s.reads + 1 } := by
  have h' : offset > s.size ∨ size > s.size - offset := by omega
  exact if_pos h'

end Storage

end ChunkGuard
