import ChunkGuard.Bytes

/-!
# Parts of byte strings

How slices of a byte string are made of shorter ones, and what a string holds that was written in
parts.
-/

namespace ChunkGuard.Bytes

/-! ## Slices -/

theorem slice_slice (i n offset size : Nat) (b : Bytes) :
    slice i n (slice offset size b) = slice (offset + i) (min n (size - i)) b := by
  apply List.ext_getElem?
  intro j
  simp only [getElem?_slice]
  by_cases hn : j < n
  · by_cases hsize : i + j < size
    · rw [if_pos hn, if_pos hsize, if_pos (by omega), Nat.add_assoc]
    · rw [if_pos hn, if_neg hsize, if_neg (by omega)]
  · rw [if_neg hn, if_neg (by omega)]

/-- Slices that both reach the end of a string are the same. -/
theorem slice_eq_of_end {offset n m : Nat} {b : Bytes} (hn : b.length ≤ offset + n)
    (hm : b.length ≤ offset + m) : slice offset n b = slice offset m b := by
  rw [slice, slice, List.take_of_length_le, List.take_of_length_le]
  · rw [List.length_drop]
    omega
  · rw [List.length_drop]
    omega

/-- A slice ends where the string ends. -/
theorem slice_min (offset size : Nat) (b : Bytes) :
    slice offset (min size (b.length - offset)) b = slice offset size b := by
  rw [slice, slice, ← List.length_drop, Nat.min_comm, List.take_eq_take_iff]
  omega

/-- A slice is a shorter slice and the slice after it. -/
theorem slice_add (offset n m : Nat) (b : Bytes) :
    slice offset (n + m) b = slice offset n b ++ slice (offset + n) m b := by
  rw [slice, slice, slice, List.take_add, List.drop_drop]

theorem getElem?_padded (offset size i : Nat) (b : Bytes) :
    (padded offset size b)[i]? = if i < size then some (b.getD (offset + i) 0) else none := by
  rw [padded, getElem?_resize, List.getD_eq_getElem?_getD, List.getElem?_drop,
    List.getD_eq_getElem?_getD]

/-- Where a string shows another one, padding it gives the slice of the other. -/
theorem padded_eq_slice {offset position size : Nat} {x y : Bytes}
    (h : ∀ i < size, x[offset + i]? = y[position + i]?)
    (hsize : 0 < size → position + size ≤ y.length) :
    padded offset size x = slice position size y := by
  apply List.ext_getElem?
  intro i
  rw [padded, getElem?_resize, getElem?_slice]
  by_cases hi : i < size
  · have hsize := hsize (Nat.zero_lt_of_lt hi)
    rw [if_pos hi, if_pos hi, List.getD_eq_getElem?_getD, List.getElem?_drop, h i hi,
      List.getElem?_eq_getElem (by omega), Option.getD_some]
  · rw [if_neg hi, if_neg hi]

/-- In a string of parts that all have the same length, the parts stand at multiples of it. -/
theorem getElem?_flatMap {α : Type} {f : α → Bytes} {n : Nat} (hf : ∀ x, (f x).length = n)
    (l : List α) (i : Nat) {k : Nat} (hk : k < n) :
    (l.flatMap f)[n * i + k]? = l[i]?.bind fun x => (f x)[k]? := by
  induction l generalizing i with
  | nil => rfl
  | cons x l ih =>
      rw [List.flatMap_cons]
      cases i with
      | zero =>
          rw [Nat.mul_zero, Nat.zero_add, List.getElem?_append_left (by rw [hf]; exact hk)]
          rfl
      | succ i =>
          have hpast : n * (i + 1) + k - (f x).length = n * i + k := by
            rw [hf, Nat.mul_succ]
            omega
          rw [List.getElem?_append_right (by rw [hf, Nat.mul_succ]; omega), hpast, ih]
          rfl

/-! ## Writes -/

/-- What is written at the start is followed by the rest of what was there. -/
theorem write_zero (src b : Bytes) : write 0 src b = src ++ b.drop src.length := by
  rw [write, resize, List.take_zero, Nat.zero_sub, Nat.zero_add]
  rfl

theorem write_nil {offset : Nat} {b : Bytes} (h : offset ≤ b.length) : write offset [] b = b := by
  apply List.ext_getElem?
  intro i
  rw [getElem?_write, List.length_nil, Nat.add_zero]
  by_cases hi : i < offset
  · rw [if_pos hi, List.getD_eq_getElem?_getD, List.getElem?_eq_getElem (by omega),
      Option.getD_some]
  · rw [if_neg hi, if_neg hi]

/-- Bytes written one after the other are as if written at once. -/
theorem write_append (offset : Nat) (x y b : Bytes) :
    write (offset + x.length) y (write offset x b) = write offset (x ++ y) b := by
  apply List.ext_getElem?
  intro i
  simp only [getElem?_write, List.getD_eq_getElem?_getD, List.getElem?_append,
    List.length_append]
  by_cases hbefore : i < offset
  · rw [if_pos (by omega), if_pos hbefore, if_pos hbefore, Option.getD_some]
  · by_cases hx : i < offset + x.length
    · rw [if_pos hx, if_neg hbefore, if_pos hx, if_neg hbefore, if_pos (by omega),
        if_pos (by omega), List.getElem?_eq_getElem (by omega), Option.getD_some]
    · by_cases hy : i < offset + x.length + y.length
      · rw [if_neg hx, if_pos hy, if_neg hbefore, if_pos (by omega), if_neg (by omega)]
        congr 1
        omega
      · rw [if_neg hx, if_neg hy, if_neg hbefore, if_neg hx, if_neg hbefore, if_neg (by omega)]

end ChunkGuard.Bytes
