import ChunkGuard.Bytes

/-!
# Contents of files

A file may be far longer than all that was written to it, so its content is a list of extents:
bytes that were written, and holes of zeros between them. `Content.toBytes` is the string of bytes
that a content stands for. The operations are those on byte strings, as `Content.toBytes_resize`,
`Content.toBytes_write` and `Content.slice_eq` say.
-/

namespace ChunkGuard

/-- A part of a file. -/
inductive Extent where
  /-- Bytes that were written. -/
  | data (bytes : Bytes)
  /-- Zeros that take no room. -/
  | hole (size : Nat)
  deriving DecidableEq, Repr

namespace Extent

/-- The bytes that an extent stands for. -/
def toBytes : Extent → Bytes
  | data bytes => bytes
  | hole size => Bytes.zeros size

/-- The number of bytes. -/
def size : Extent → Nat
  | data bytes => bytes.length
  | hole size => size

/-- The first bytes. -/
def take (n : Nat) : Extent → Extent
  | data bytes => data (bytes.take n)
  | hole size => hole (min n size)

/-- What follows the first bytes. -/
def drop (n : Nat) : Extent → Extent
  | data bytes => data (bytes.drop n)
  | hole size => hole (size - n)

theorem length_toBytes : ∀ e : Extent, e.toBytes.length = e.size
  | data _ => rfl
  | hole size => Bytes.length_zeros size

theorem toBytes_take (n : Nat) : ∀ e : Extent, (e.take n).toBytes = e.toBytes.take n
  | data _ => rfl
  | hole size => by simp only [take, toBytes, Bytes.zeros, List.take_replicate]

theorem toBytes_drop (n : Nat) : ∀ e : Extent, (e.drop n).toBytes = e.toBytes.drop n
  | data _ => rfl
  | hole size => by simp only [drop, toBytes, Bytes.zeros, List.drop_replicate]

end Extent

/-- What a file holds, from its first byte to its last. -/
abbrev Content := List Extent

namespace Content

/-- The content that holds bytes. -/
def ofBytes (bytes : Bytes) : Content := [.data bytes]

/-- The bytes that a content stands for. -/
def toBytes (c : Content) : Bytes := c.flatMap Extent.toBytes

/-- The number of bytes. -/
def size : Content → Nat
  | [] => 0
  | e :: rest => e.size + size rest

/-- The first bytes. -/
def take (n : Nat) : Content → Content
  | [] => []
  | e :: rest => if n ≤ e.size then [e.take n] else e :: take (n - e.size) rest

/-- What follows the first bytes. -/
def drop (n : Nat) : Content → Content
  | [] => []
  | e :: rest => if n < e.size then e.drop n :: rest else drop (n - e.size) rest

/-- Cuts the content off, or adds a hole. -/
def resize (n : Nat) (c : Content) : Content :=
  if n ≤ size c then take n c else c ++ [.hole (n - size c)]

/-- Lays bytes over the content at an offset. A gap before them becomes a hole. -/
def write (offset : Nat) (src : Bytes) (c : Content) : Content :=
  resize offset c ++ .data src :: drop (offset + src.length) c

/-- The bytes from an offset on, as far as there are any. -/
def slice (offset size : Nat) (c : Content) : Bytes := toBytes (take size (drop offset c))

/-- Bytes are content. -/
theorem toBytes_ofBytes (bytes : Bytes) : toBytes (ofBytes bytes) = bytes :=
  List.flatMap_singleton Extent.toBytes (.data bytes)

theorem toBytes_cons (e : Extent) (c : Content) : toBytes (e :: c) = e.toBytes ++ toBytes c :=
  List.flatMap_cons

theorem toBytes_append (c d : Content) : toBytes (c ++ d) = toBytes c ++ toBytes d :=
  List.flatMap_append

/-- The size is the number of bytes. -/
theorem length_toBytes (c : Content) : (toBytes c).length = size c := by
  induction c with
  | nil => rfl
  | cons e rest ih =>
    rw [toBytes_cons, List.length_append, Extent.length_toBytes, ih, size]

/-- Taking is done on the bytes. -/
theorem toBytes_take (n : Nat) (c : Content) : toBytes (take n c) = (toBytes c).take n := by
  induction c generalizing n with
  | nil => exact List.take_nil.symm
  | cons e rest ih =>
    rw [take, toBytes_cons, List.take_append, Extent.length_toBytes]
    split
    · next h =>
      rw [toBytes_cons, Extent.toBytes_take, Nat.sub_eq_zero_of_le h, List.take_zero]
      rfl
    · next h =>
      have h' : e.toBytes.length ≤ n := by rw [Extent.length_toBytes]; omega
      rw [toBytes_cons, ih, List.take_of_length_le h']

/-- Dropping is done on the bytes. -/
theorem toBytes_drop (n : Nat) (c : Content) : toBytes (drop n c) = (toBytes c).drop n := by
  induction c generalizing n with
  | nil => exact List.drop_nil.symm
  | cons e rest ih =>
    rw [drop, toBytes_cons, List.drop_append, Extent.length_toBytes]
    split
    · next h =>
      rw [toBytes_cons, Extent.toBytes_drop, Nat.sub_eq_zero_of_le (Nat.le_of_lt h),
        List.drop_zero]
    · next h =>
      have h' : e.toBytes.length ≤ n := by rw [Extent.length_toBytes]; omega
      rw [ih, List.drop_eq_nil_of_le h', List.nil_append]

/-- A resized content stands for the resized bytes. -/
theorem toBytes_resize (n : Nat) (c : Content) :
    toBytes (resize n c) = Bytes.resize n (toBytes c) := by
  rw [resize, Bytes.resize, length_toBytes]
  split
  · next h =>
    rw [toBytes_take, Nat.sub_eq_zero_of_le h, Bytes.zeros, List.replicate_zero, List.append_nil]
  · next h =>
    have h' : (toBytes c).length ≤ n := by rw [length_toBytes]; omega
    rw [toBytes_append, List.take_of_length_le h', toBytes_cons]
    exact congrArg _ (List.append_nil _)

/-- A content with bytes laid over it stands for the bytes with those laid over them. -/
theorem toBytes_write (offset : Nat) (src : Bytes) (c : Content) :
    toBytes (write offset src c) = Bytes.write offset src (toBytes c) := by
  rw [write, Bytes.write, toBytes_append, toBytes_cons, toBytes_resize, toBytes_drop,
    Extent.toBytes, List.append_assoc]

/-- A part of a content is that part of its bytes. -/
theorem slice_eq (offset size : Nat) (c : Content) :
    slice offset size c = Bytes.slice offset size (toBytes c) := by
  rw [slice, Bytes.slice, toBytes_take, toBytes_drop]

end Content

end ChunkGuard
