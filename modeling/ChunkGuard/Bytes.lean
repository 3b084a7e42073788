/-!
# Byte strings

Byte strings are lists of octets. `Bytes.resize` cuts a string off or fills it up with zeros,
`Bytes.write` lays bytes over a string at an offset, filling any gap with zeros, and
`Bytes.slice` is the part at an offset. These are all that storages, read buffers and
checksum files need. `Bytes.getElem?_resize`, `Bytes.getElem?_write` and `Bytes.getElem?_slice` say
which byte they have where.
-/

namespace ChunkGuard

/-- A string of octets. -/
abbrev Bytes := List UInt8

namespace Bytes

/-- `zeros n` is `n` zero bytes. -/
def zeros (n : Nat) : Bytes := List.replicate n 0

/-- `resize n b` is `b` cut off after `n` bytes, or filled up to `n` bytes with zeros. -/
def resize (n : Nat) (b : Bytes) : Bytes := b.take n ++ zeros (n - b.length)

/-- `write offset src b` is `b` with `src` over its bytes from `offset` on. Where `src` starts
after the end of `b`, zeros fill the gap. -/
def write (offset : Nat) (src b : Bytes) : Bytes :=
  resize offset b ++ src ++ b.drop (offset + src.length)

/-- `slice offset size b` is the bytes `offset`, …, `offset + size - 1` of `b`, as far as `b`
has them. -/
def slice (offset size : Nat) (b : Bytes) : Bytes := (b.drop offset).take size

/-- `padded offset size b` is the bytes `offset`, …, `offset + size - 1` of `b` followed by
zeros without end. -/
def padded (offset size : Nat) (b : Bytes) : Bytes := resize size (b.drop offset)

/-- `flip offset mask b` is `b` with the byte at `offset` combined with `mask` by exclusive or. -/
def flip (offset : Nat) (mask : UInt8) (b : Bytes) : Bytes := b.modify offset (· ^^^ mask)

/-- The digit of a value below sixteen, in capitals. -/
def hexDigit (n : Nat) : Char := if n < 10 then Char.ofNat (48 + n) else Char.ofNat (55 + n)

/-- Two hexadecimal digits in capitals for each byte. -/
def hex (b : Bytes) : String :=
  String.ofList (b.flatMap fun x => [hexDigit (x.toNat / 16), hexDigit (x.toNat % 16)])

theorem length_zeros (n : Nat) : (zeros n).length = n := List.length_replicate

theorem length_resize (n : Nat) (b : Bytes) : (resize n b).length = n := by
  simp only [resize, zeros, List.length_append, List.length_take, List.length_replicate]
  omega

theorem length_write (offset : Nat) (src b : Bytes) :
    (write offset src b).length = max (offset + src.length) b.length := by
  simp only [write, List.length_append, length_resize, List.length_drop]
  omega

theorem length_slice (offset size : Nat) (b : Bytes) :
    (slice offset size b).length = min size (b.length - offset) := by
  simp only [slice, List.length_take, List.length_drop]

theorem length_padded (offset size : Nat) (b : Bytes) : (padded offset size b).length = size :=
  length_resize size _

/-- A byte of a resized string is the old one, or zero where there was none. -/
theorem getElem?_resize (n i : Nat) (b : Bytes) :
    (resize n b)[i]? = if i < n then some (b.getD i 0) else none := by
  by_cases hn : i < n
  · rw [if_pos hn, resize]
    by_cases hb : i < b.length
    · rw [List.getElem?_append_left (by rw [List.length_take]; omega),
        List.getElem?_take_of_lt hn, List.getD_eq_getElem?_getD, List.getElem?_eq_getElem hb]
      rfl
    · rw [List.getElem?_append_right (by rw [List.length_take]; omega), zeros,
        List.getElem?_replicate, if_pos (by rw [List.length_take]; omega),
        List.getD_eq_getElem?_getD, List.getElem?_eq_none (Nat.le_of_not_lt hb)]
      rfl
  · rw [if_neg hn]
    exact List.getElem?_eq_none (by rw [length_resize]; omega)

/-- Bytes laid over a string are there, before them is what was there or zeros, and after them is
what was there. -/
theorem getElem?_write (offset i : Nat) (src b : Bytes) :
    (write offset src b)[i]? =
      if i < offset then some (b.getD i 0)
      else if i < offset + src.length then src[i - offset]?
      else b[i]? := by
  simp only [write, List.append_assoc, List.getElem?_append, length_resize, getElem?_resize,
    List.getElem?_drop]
  split
  · rfl
  · by_cases h : i < offset + src.length
    · rw [if_pos (by omega), if_pos h]
    · rw [if_neg (by omega), if_neg h]
      congr 1
      omega

theorem getElem?_slice (offset size i : Nat) (b : Bytes) :
    (slice offset size b)[i]? = if i < size then b[offset + i]? else none := by
  simp only [slice, List.getElem?_take, List.getElem?_drop]

end Bytes

end ChunkGuard
