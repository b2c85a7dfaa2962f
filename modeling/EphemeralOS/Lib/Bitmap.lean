import Mathlib.Logic.Function.Basic
import Mathlib.Data.Nat.Bitwise

/-!
# Bitmaps in byte arrays

A bitmap is an array of bytes; bit `b` is bit `b % 8` of byte `b / 8`, tested
and changed with shifts and masks. `test_set` and `test_clear` give the arrays
of bits they compute: only the named bit changes.
-/

namespace Bits

/-- The mask of bit `b` within its byte. -/
def mask (b : UInt32) : UInt8 := 1 <<< (b % 8).toUInt8

/-- Is bit `b` set? -/
def test (bm : UInt32 → UInt8) (b : UInt32) : Bool := bm (b / 8) &&& mask b != 0

/-- Set bit `b`. -/
def set (bm : UInt32 → UInt8) (b : UInt32) : UInt32 → UInt8 :=
  Function.update bm (b / 8) (bm (b / 8) ||| mask b)

/-- Clear bit `b`. -/
def clear (bm : UInt32 → UInt8) (b : UInt32) : UInt32 → UInt8 :=
  Function.update bm (b / 8) (bm (b / 8) &&& ~~~ mask b)

theorem toNat_mask (b : UInt32) : (mask b).toNat = 2 ^ (b.toNat % 8) := by
  have hb : b.toNat % 8 < 8 := Nat.mod_lt _ (by omega)
  have hp : 2 ^ (b.toNat % 8) < 2 ^ 8 := Nat.pow_lt_pow_right (by omega) hb
  simp only [mask, UInt8.toNat_shiftLeft, UInt32.toNat_toUInt8, UInt32.toNat_mod]
  rw [show (8 : UInt32).toNat = 8 from rfl, show (1 : UInt8).toNat = 1 from rfl,
    Nat.mod_eq_of_lt (show b.toNat % 8 < 2 ^ 8 by omega), Nat.mod_eq_of_lt hb, Nat.shiftLeft_eq,
    Nat.one_mul, Nat.mod_eq_of_lt hp]

theorem test_eq (bm : UInt32 → UInt8) (b : UInt32) :
    test bm b = (bm (b / 8)).toNat.testBit (b.toNat % 8) := by
  have h : (bm (b / 8) &&& mask b = 0) ↔ (bm (b / 8)).toNat.testBit (b.toNat % 8) = false := by
    rw [← UInt8.toNat_inj, UInt8.toNat_and, toNat_mask, Nat.and_two_pow]
    cases (bm (b / 8)).toNat.testBit (b.toNat % 8) <;> simp
  unfold test
  cases ht : (bm (b / 8)).toNat.testBit (b.toNat % 8) with
  | false => simp [h.mpr ht]
  | true =>
    have : bm (b / 8) &&& mask b ≠ 0 := fun e => by rw [h.mp e] at ht; cases ht
    simp [this]

/-- Two bit numbers of one byte with one offset are the same bit. -/
theorem eq_of_div_mod {a b : UInt32} (hd : a / 8 = b / 8) (hm : a.toNat % 8 = b.toNat % 8) :
    a = b := by
  have hd' := congrArg UInt32.toNat hd
  simp only [UInt32.toNat_div, show (8 : UInt32).toNat = 8 from rfl] at hd'
  exact UInt32.toNat_inj.mp (by omega)

theorem test_set (bm : UInt32 → UInt8) (a b : UInt32) :
    test (set bm a) b = (decide (b = a) || test bm b) := by
  simp only [test_eq, set]
  by_cases hd : b / 8 = a / 8
  · rw [hd, Function.update_self, UInt8.toNat_or, Nat.testBit_or, toNat_mask, Nat.testBit_two_pow,
      Bool.or_comm]
    congr 1
    by_cases hm : a.toNat % 8 = b.toNat % 8
    · simp [eq_of_div_mod hd hm.symm]
    · have : b ≠ a := fun e => hm (by rw [e])
      simp [hm, this]
  · have : b ≠ a := fun e => hd (by rw [e])
    simp [Function.update_of_ne hd, this]

theorem test_clear (bm : UInt32 → UInt8) (a b : UInt32) :
    test (clear bm a) b = (decide (b ≠ a) && test bm b) := by
  simp only [test_eq, clear]
  by_cases hd : b / 8 = a / 8
  · have hp : 2 ^ (a.toNat % 8) < 2 ^ 8 :=
      Nat.pow_lt_pow_right (by omega) (Nat.mod_lt _ (by omega))
    have hnot : (~~~ mask a).toNat = 2 ^ 8 - (2 ^ (a.toNat % 8) + 1) := by
      rw [UInt8.toNat_not, toNat_mask, UInt8.size]; omega
    rw [hd, Function.update_self, UInt8.toNat_and, Nat.testBit_and, hnot,
      Nat.testBit_two_pow_sub_succ hp, Nat.testBit_two_pow, Bool.and_comm]
    congr 1
    by_cases hm : a.toNat % 8 = b.toNat % 8
    · simp [eq_of_div_mod hd hm.symm]
    · have : b ≠ a := fun e => hm (by rw [e])
      simp [hm, this]; omega
  · have : b ≠ a := fun e => hd (by rw [e])
    simp [Function.update_of_ne hd, this]

end Bits
