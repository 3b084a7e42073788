import ChunkGuard.Bytes

/-!
# Stored checksums

A checksum is stored as four bytes, the most significant first. Reading back what was stored gives
the checksum again (`load_store`).
-/

namespace ChunkGuard.Stored

/-- The four bytes of a checksum. -/
def store (sum : UInt32) : Bytes :=
  [.ofNat (sum.toNat / 0x1000000), .ofNat (sum.toNat / 0x10000), .ofNat (sum.toNat / 0x100),
    .ofNat sum.toNat]

/-- The checksum in the first four bytes, bytes that are missing being zero. -/
def load (bytes : Bytes) : UInt32 :=
  .ofNat ((bytes.getD 0 0).toNat * 0x1000000 + (bytes.getD 1 0).toNat * 0x10000
    + (bytes.getD 2 0).toNat * 0x100 + (bytes.getD 3 0).toNat)

/-- The checksum that stands at an index of a string of stored checksums. -/
def loadAt (index : Nat) (bytes : Bytes) : UInt32 := load (bytes.drop (4 * index))

theorem length_store (sum : UInt32) : (store sum).length = 4 := rfl

/-- What follows the four bytes of a stored checksum doesn't matter. -/
theorem load_store (sum : UInt32) (rest : Bytes) : load (store sum ++ rest) = sum := by
  apply UInt32.toNat_inj.mp
  have h := sum.toNat_lt
  simp only [load, store, List.cons_append, List.nil_append, List.getD_cons_zero,
    List.getD_cons_succ, UInt8.toNat_ofNat', UInt32.toNat_ofNat']
  omega

end ChunkGuard.Stored
