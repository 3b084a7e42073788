import ChunkGuard.Checksum.Crc
import ChunkGuard.Proofs.Bytes
import Mathlib.Algebra.Group.Nat.Defs

/-!
# Bursts of damage

Two byte strings that differ only inside of four bytes in a row have different checksums
(`Algorithm.eq_of_sum_eq`). A step of the register is linear in the bits, so the difference of two
registers goes through the same steps as a register does. Each step shifts it down by a bit, and
only what falls out at the bottom can set the highest bit again. Hence a difference that is gone
after `n` bits of equal input was none, and one that is gone after `n` bits of damage fitted into
these bits, as long as they are no more than the register has.
-/

namespace ChunkGuard.Algorithm

variable {a : Algorithm}

/-! ## Steps of a difference -/

/-- What a step combines a register with after shifting it down. -/
def feedback (a : Algorithm) (register : UInt32) : UInt32 :=
  if register &&& 1 = 1 then a.reflected else 0

theorem bitStep_eq (a : Algorithm) (x : UInt32) : a.bitStep x = (x >>> 1) ^^^ a.feedback x := by
  rw [bitStep, feedback]
  split
  · rfl
  · rw [UInt32.xor_zero]

theorem and_one_eq_one_iff (x : UInt32) : x &&& 1 = 1 ↔ x.toNat % 2 = 1 := by
  rw [← UInt32.toNat_inj, UInt32.toNat_and, ← Nat.and_one_is_mod]
  rfl

theorem feedback_xor (a : Algorithm) (x y : UInt32) :
    a.feedback (x ^^^ y) = a.feedback x ^^^ a.feedback y := by
  have hodd : (x ^^^ y).toNat % 2 = 1 ↔ (x.toNat % 2 = 1 ↔ ¬ y.toNat % 2 = 1) := by
    rw [UInt32.toNat_xor, ← Nat.pow_one 2, Nat.xor_mod_two_pow]
    obtain hx | hx := Nat.mod_two_eq_zero_or_one x.toNat <;>
      obtain hy | hy := Nat.mod_two_eq_zero_or_one y.toNat <;>
      simp [hx, hy]
  simp only [feedback, and_one_eq_one_iff, hodd]
  by_cases hx : x.toNat % 2 = 1 <;> by_cases hy : y.toNat % 2 = 1 <;> simp [hx, hy]

theorem bitStep_xor (a : Algorithm) (x y : UInt32) :
    a.bitStep (x ^^^ y) = a.bitStep x ^^^ a.bitStep y := by
  rw [bitStep_eq, bitStep_eq, bitStep_eq, UInt32.shiftRight_xor, feedback_xor]
  ac_rfl

theorem bitSteps_xor (a : Algorithm) (n : Nat) (x y : UInt32) :
    a.bitSteps n (x ^^^ y) = a.bitSteps n x ^^^ a.bitSteps n y := by
  induction n generalizing x y with
  | zero => rfl
  | succ n ih =>
      rw [bitSteps, bitStep_xor, ih]
      rfl

/-- A step that leaves the highest bit clear only moved the register down. -/
theorem toNat_eq_of_bitStep_lt {x : UInt32} (h : (a.bitStep x).toNat < 2 ^ 31) :
    x.toNat = 2 * (a.bitStep x).toNat := by
  have hhalf : (x >>> 1).toNat = x.toNat / 2 := UInt32.toNat_shiftRight ..
  have heven : ¬ x &&& 1 = 1 := by
    intro hodd
    have hbit : (a.bitStep x).toNat.testBit 31 = true := by
      have hx : (x.toNat / 2).testBit 31 = false :=
        Nat.testBit_lt_two_pow (Nat.div_lt_of_lt_mul x.toNat_lt)
      have hpoly : a.reflected.toNat.testBit 31 = true := by cases a <;> decide
      rw [bitStep, if_pos hodd, UInt32.toNat_xor, hhalf, Nat.testBit_xor, hx, hpoly]
      rfl
    exact absurd (Nat.ge_two_pow_of_testBit hbit) (Nat.not_le_of_lt h)
  rw [bitStep, if_neg heven, hhalf]
  rw [and_one_eq_one_iff] at heven
  omega

/-- `n` steps that leave the highest `n` bits clear only moved the register down. -/
theorem toNat_eq_of_bitSteps_lt {n k : Nat} {x : UInt32} (h : (a.bitSteps n x).toNat < 2 ^ k)
    (hk : k + n ≤ 32) : x.toNat = 2 ^ n * (a.bitSteps n x).toNat := by
  induction n generalizing x with
  | zero => rw [Nat.pow_zero, Nat.one_mul, bitSteps]
  | succ n ih =>
      have hstep := ih (x := a.bitStep x) h (by omega)
      have hlt : (a.bitStep x).toNat < 2 ^ 31 := by
        calc (a.bitStep x).toNat = 2 ^ n * (a.bitSteps n (a.bitStep x)).toNat := hstep
          _ < 2 ^ n * 2 ^ k := Nat.mul_lt_mul_of_pos_left h (Nat.two_pow_pos n)
          _ = 2 ^ (n + k) := (Nat.pow_add ..).symm
          _ ≤ 2 ^ 31 := Nat.pow_le_pow_right (by decide) (by omega)
      rw [toNat_eq_of_bitStep_lt hlt, hstep, Nat.pow_succ', Nat.mul_assoc]
      rfl

theorem byteStep_xor (a : Algorithm) (r s : UInt32) (b c : UInt8) :
    a.byteStep r b ^^^ a.byteStep s c = a.bitSteps 8 ((r ^^^ s) ^^^ (b ^^^ c).toUInt32) := by
  rw [byteStep, byteStep, ← bitSteps_xor, UInt8.toUInt32_xor]
  congr 1
  ac_rfl

/-! ## Registers and bytes that lead to the same register -/

/-- Registers that the same bytes take to the same register are the same. -/
theorem eq_of_feed_eq {bytes : Bytes} {r s : UInt32} (h : a.feed r bytes = a.feed s bytes) :
    r = s := by
  induction bytes generalizing r s with
  | nil => exact h
  | cons b bytes ih =>
      have hzero : a.bitSteps 8 (r ^^^ s) = 0 := by
        have hstep := byteStep_xor a r s b b
        have hbyte : (0 : UInt8).toUInt32 = 0 := rfl
        rw [ih h, UInt32.xor_self, UInt8.xor_self, hbyte, UInt32.xor_zero] at hstep
        exact hstep.symm
      have hxor : (r ^^^ s).toNat = 0 := by
        rw [toNat_eq_of_bitSteps_lt (k := 24) (by rw [hzero]; decide) (by decide), hzero]
        rfl
      exact UInt32.xor_eq_zero_iff.mp (UInt32.toNat_inj.mp hxor)

/-- Registers that up to four bytes each take to the same register differ in the bits of so many
bytes only. -/
theorem xor_lt_of_feed_eq {x y : Bytes} {r s : UInt32} (hlength : x.length = y.length)
    (hfour : x.length ≤ 4) (h : a.feed r x = a.feed s y) :
    (r ^^^ s).toNat < 2 ^ (8 * x.length) := by
  induction x generalizing y r s with
  | nil =>
      rw [List.length_nil] at hlength
      rw [List.length_eq_zero_iff.mp hlength.symm] at h
      have h : r = s := h
      rw [h, UInt32.xor_self]
      decide
  | cons b x ih =>
      cases y with
      | nil => cases hlength
      | cons c y =>
          rw [List.length_cons] at hfour ⊢
          have hlt := ih (Nat.succ_inj.mp hlength) (by omega) h
          rw [byteStep_xor] at hlt
          have hsteps := toNat_eq_of_bitSteps_lt hlt (by omega)
          have hbound : ((r ^^^ s) ^^^ (b ^^^ c).toUInt32).toNat < 2 ^ (8 * (x.length + 1)) := by
            rw [hsteps, Nat.mul_succ, Nat.add_comm, Nat.pow_add]
            exact Nat.mul_lt_mul_of_pos_left hlt (by decide)
          have hbyte : (b ^^^ c).toUInt32.toNat < 2 ^ (8 * (x.length + 1)) := by
            rw [UInt8.toNat_toUInt32]
            exact Nat.lt_of_lt_of_le (b ^^^ c).toNat_lt
              (Nat.pow_le_pow_right (by decide) (by omega))
          -- The bytes combined twice drop out.
          have hback : r ^^^ s = ((r ^^^ s) ^^^ (b ^^^ c).toUInt32) ^^^ (b ^^^ c).toUInt32 := by
            rw [UInt32.xor_assoc, UInt32.xor_self, UInt32.xor_zero]
          rw [hback, UInt32.toNat_xor]
          exact Nat.xor_lt_two_pow hbound hbyte

/-- Up to four bytes that take a register to the same register are the same. -/
theorem bytes_eq_of_feed_eq {x y : Bytes} {r : UInt32} (hlength : x.length = y.length)
    (hfour : x.length ≤ 4) (h : a.feed r x = a.feed r y) : x = y := by
  induction x generalizing y r with
  | nil => exact (List.length_eq_zero_iff.mp hlength.symm).symm
  | cons b x ih =>
      cases y with
      | nil => cases hlength
      | cons c y =>
          rw [List.length_cons] at hfour
          have hrest : x.length = y.length := Nat.succ_inj.mp hlength
          have hlt := xor_lt_of_feed_eq (r := a.byteStep r b) (s := a.byteStep r c) hrest
            (by omega) h
          rw [byteStep_xor, UInt32.xor_self, UInt32.zero_xor] at hlt
          have hsteps := toNat_eq_of_bitSteps_lt hlt (by omega)
          -- What is shifted down by a byte and came from a byte is nothing.
          have hsame : b ^^^ c = 0 := by
            have hbyte := (b ^^^ c).toNat_lt
            rw [UInt8.toNat_toUInt32] at hsteps
            apply UInt8.toNat_inj.mp
            show (b ^^^ c).toNat = 0
            omega
          obtain rfl : b = c := UInt8.xor_eq_zero_iff.mp hsame
          rw [ih hrest (by omega) h]

/-! ## Checksums -/

/-- Strings of the same length with the same checksum that differ inside of four bytes in a row at
most are the same. -/
theorem eq_of_sum_eq {x y : Bytes} (hlength : x.length = y.length) (start : Nat)
    (hsame : ∀ i, i < start ∨ start + 4 ≤ i → x[i]? = y[i]?) (hsum : a.sum x = a.sum y) :
    x = y := by
  have hbefore : x.take start = y.take start := by
    apply List.ext_getElem?
    intro i
    rw [List.getElem?_take, List.getElem?_take]
    split
    · exact hsame i (.inl (by assumption))
    · rfl
  have hafter : x.drop (start + 4) = y.drop (start + 4) := by
    apply List.ext_getElem?
    intro i
    rw [List.getElem?_drop, List.getElem?_drop]
    exact hsame _ (.inr (Nat.le_add_right _ _))
  have hsplit : ∀ z : Bytes, z = z.take start ++ (Bytes.slice start 4 z ++ z.drop (start + 4)) := by
    intro z
    rw [Bytes.slice, ← List.drop_drop, List.take_append_drop, List.take_append_drop]
  have hfeed : a.feed fresh x = a.feed fresh y := (UInt32.xor_left_inj fresh).mp hsum
  rw [hsplit x, hsplit y, hbefore, hafter] at hfeed ⊢
  simp only [feed_append] at hfeed
  rw [bytes_eq_of_feed_eq _ _ (eq_of_feed_eq hfeed)]
  · rw [Bytes.length_slice, Bytes.length_slice, hlength]
  · rw [Bytes.length_slice]
    omega

end ChunkGuard.Algorithm
