import ChunkGuard.Bytes

/-!
# Cyclic redundancy checks

The two 32-bit checks of this library divide by their polynomial with the low bit first: a step
shifts the register down and, when the bit that falls out is set, combines it with the reflected
polynomial. The register starts with all bits set, and the checksum is its complement.
-/

namespace ChunkGuard

/-- The checks, each with its own polynomial. -/
inductive Algorithm where
  /-- The check of Ethernet frames and of zip archives. -/
  | crc32
  /-- The check by the polynomial of Castagnoli. -/
  | crc32c
  deriving DecidableEq, Repr

namespace Algorithm

/-- The coefficients of the polynomial below its leading one, the highest of them in the lowest
bit. -/
def reflected : Algorithm → UInt32
  | crc32 => 0xEDB88320
  | crc32c => 0x82F63B78

/-- One bit of division. -/
def bitStep (a : Algorithm) (register : UInt32) : UInt32 :=
  if register &&& 1 = 1 then (register >>> 1) ^^^ a.reflected else register >>> 1

/-- `bitSteps a n` is `n` bits of division. -/
def bitSteps (a : Algorithm) : Nat → UInt32 → UInt32
  | 0, register => register
  | n + 1, register => bitSteps a n (a.bitStep register)

/-- Takes one byte into the register. -/
def byteStep (a : Algorithm) (register : UInt32) (byte : UInt8) : UInt32 :=
  a.bitSteps 8 (register ^^^ byte.toUInt32)

/-- Takes bytes into the register, the first one first. -/
def feed (a : Algorithm) (register : UInt32) (bytes : Bytes) : UInt32 :=
  bytes.foldl a.byteStep register

/-- The register before any byte, and the mask of the final complement. -/
def fresh : UInt32 := 0xFFFFFFFF

/-- The checksum of a byte string. -/
def sum (a : Algorithm) (bytes : Bytes) : UInt32 := a.feed fresh bytes ^^^ fresh

theorem feed_append (a : Algorithm) (register : UInt32) (x y : Bytes) :
    a.feed register (x ++ y) = a.feed (a.feed register x) y := List.foldl_append

end Algorithm

end ChunkGuard
