import Mathlib.Data.Nat.ModEq
import Mathlib.Algebra.Order.BigOperators.Group.List

/-!
# The Internet checksum

The sums of the 16-bit words of a byte list, read with either byte first, and
their one's-complement sum. A one's-complement sum is its plain sum modulo
`2^16 - 1`, and `Verifies` is the test of a receiver (`verifies_iff`). Swapping
the bytes of every word multiplies the sum by 256 (`leSum_modEq`), which is why
the place of a checksum matters and the byte order of the sum does not.

`verifies_swapped_iff` says what comes of a checksum that is computed in one
byte order and stored in the other.
-/

namespace Checksum

/-- The 16-bit words of a byte list, high byte first; a last odd byte is padded with a zero. -/
def beWords : List UInt8 → List Nat
  | a :: b :: l => (a.toNat * 256 + b.toNat) :: beWords l
  | [a] => [a.toNat * 256]
  | [] => []

/-- The sum of the words, high byte first. -/
def beSum (l : List UInt8) : Nat := (beWords l).sum

/-- The sum of the words, low byte first. -/
def leSum : List UInt8 → Nat
  | a :: b :: l => a.toNat + b.toNat * 256 + leSum l
  | [a] => a.toNat
  | [] => 0

theorem beWords_append {l : List UInt8} (h : 2 ∣ l.length) (r : List UInt8) :
    beWords (l ++ r) = beWords l ++ beWords r := by
  induction l using beWords.induct with
  | case1 a b l ih =>
    rw [List.length_cons, List.length_cons] at h
    rw [List.cons_append, List.cons_append, beWords, ih (by omega), beWords, List.cons_append]
  | case2 a =>
    rw [List.length_singleton] at h
    omega
  | case3 => rfl

theorem beSum_append {l : List UInt8} (h : 2 ∣ l.length) (r : List UInt8) :
    beSum (l ++ r) = beSum l + beSum r := by
  rw [beSum, beWords_append h, List.sum_append, beSum, beSum]

theorem beWords_lt {l : List UInt8} {w : Nat} (h : w ∈ beWords l) : w < 65536 := by
  induction l using beWords.induct with
  | case1 a b l ih =>
    have ha := a.toNat_lt
    have hb := b.toNat_lt
    rcases List.mem_cons.mp h with rfl | h
    · omega
    · exact ih h
  | case2 a =>
    have ha := a.toNat_lt
    rw [List.mem_singleton.mp h]
    omega
  | case3 => cases h

/-- **Byte order multiplies a sum by 256.** -/
theorem leSum_modEq (l : List UInt8) : leSum l ≡ 256 * beSum l [MOD 65535] := by
  induction l using beWords.induct with
  | case1 a b l ih =>
    rw [leSum, beSum, beWords, List.sum_cons, Nat.mul_add]
    refine Nat.ModEq.add ?_ ih
    rw [Nat.ModEq]
    omega
  | case2 a =>
    rw [leSum, beSum, beWords, List.sum_singleton, Nat.ModEq]
    omega
  | case3 => rfl

theorem leSum_eq_zero {l : List UInt8} : leSum l = 0 ↔ beSum l = 0 := by
  induction l using beWords.induct with
  | case1 a b l ih =>
    rw [beSum] at ih ⊢
    rw [leSum, beWords, List.sum_cons]
    omega
  | case2 a =>
    rw [leSum, beSum, beWords, List.sum_singleton]
    omega
  | case3 => rfl

theorem leSum_le (l : List UInt8) : 2 * leSum l ≤ 65535 * (l.length + 1) := by
  induction l using beWords.induct with
  | case1 a b l ih =>
    have ha := a.toNat_lt
    have hb := b.toNat_lt
    rw [leSum, List.length_cons, List.length_cons]
    omega
  | case2 a =>
    have ha := a.toNat_lt
    rw [leSum, List.length_singleton]
    omega
  | case3 => exact Nat.zero_le _

theorem leSum_append {l : List UInt8} (h : 2 ∣ l.length) (r : List UInt8) :
    leSum (l ++ r) = leSum l + leSum r := by
  induction l using beWords.induct with
  | case1 a b l ih =>
    rw [List.length_cons, List.length_cons] at h
    rw [List.cons_append, List.cons_append, leSum, ih (by omega), leSum, Nat.add_assoc _ (leSum l)]
  | case2 a =>
    rw [List.length_singleton] at h
    omega
  | case3 =>
    rw [List.nil_append, leSum, Nat.zero_add]

/-! ## One's-complement sums -/

def onesAdd (a b : Nat) : Nat := (a + b) % 65536 + (a + b) / 65536

def onesSum (ws : List Nat) : Nat := ws.foldr onesAdd 0

/-- The checksum of a byte list: the complement of the one's-complement sum of its words. -/
def internetChecksum (l : List UInt8) : Nat := 0xFFFF - onesSum (beWords l)

/-- The test of a receiver: the one's-complement sum of all words is all ones. -/
def Verifies (l : List UInt8) : Prop := onesSum (beWords l) = 0xFFFF

instance (l : List UInt8) : Decidable (Verifies l) := inferInstanceAs (Decidable (_ = _))

theorem onesSum_spec {ws : List Nat} (h : ∀ w ∈ ws, w < 65536) :
    onesSum ws < 65536 ∧ onesSum ws ≡ ws.sum [MOD 65535] ∧ (onesSum ws = 0 ↔ ws.sum = 0) := by
  induction ws with
  | nil => exact ⟨by decide, rfl, Iff.rfl⟩
  | cons w ws ih =>
    obtain ⟨hlt, hmod, hzero⟩ := ih fun v hv => h v (List.mem_cons_of_mem _ hv)
    have hw := h w List.mem_cons_self
    have hcons : onesSum (w :: ws) = onesAdd w (onesSum ws) := rfl
    rw [Nat.ModEq] at hmod
    rw [hcons, onesAdd, List.sum_cons, Nat.ModEq]
    refine ⟨by omega, by omega, by omega⟩

/-- A receiver accepts the nonzero multiples of `2^16 - 1`. -/
theorem verifies_iff {l : List UInt8} : Verifies l ↔ 65535 ∣ beSum l ∧ beSum l ≠ 0 := by
  obtain ⟨hlt, hmod, hzero⟩ := onesSum_spec fun w hw => beWords_lt (l := l) hw
  rw [Nat.ModEq] at hmod
  rw [Verifies, beSum]
  omega

/-- **The byte order of the sum does not matter**: a one's-complement sum `fold` with the low byte
first, its bytes swapped, is the one with the high byte first. -/
theorem swapped_eq_onesSum {l : List UInt8} {fold : Nat} (hlt : fold < 65536)
    (hmod : fold ≡ leSum l [MOD 65535]) (hzero : fold = 0 ↔ leSum l = 0) :
    fold % 256 * 256 + fold / 256 = onesSum (beWords l) := by
  obtain ⟨hlt', hmod', hzero'⟩ := onesSum_spec fun w hw => beWords_lt (l := l) hw
  have hswap := hmod.trans (leSum_modEq l)
  rw [leSum_eq_zero, beSum] at hzero
  rw [beSum] at hswap
  rw [Nat.ModEq] at hswap hmod'
  -- both are the sum modulo 65535, and zero only if it is
  omega

/-- **A checksum in the wrong byte order.** In place of a zero word stands, high byte first, the
complement of `fold`, the one's-complement sum with the low byte first. A receiver accepts the
bytes exactly if the sum of their words without the checksum is a multiple of 257. -/
theorem verifies_swapped_iff {pre post : List UInt8} {hi lo : UInt8} {fold : Nat}
    (hpre : 2 ∣ pre.length) (hlt : fold < 65536)
    (hmod : fold ≡ leSum (pre ++ [0, 0] ++ post) [MOD 65535])
    (hzero : leSum (pre ++ [0, 0] ++ post) = 0 → fold = 0)
    (hsum : hi.toNat * 256 + lo.toNat = 65535 - fold) :
    Verifies (pre ++ [hi, lo] ++ post) ↔ 257 ∣ beSum (pre ++ [0, 0] ++ post) := by
  have hplain : beSum (pre ++ [0, 0] ++ post) = beSum pre + beSum post := by
    rw [List.append_assoc, beSum_append hpre, beSum_append (l := [0, 0]) (by simp)]
    simp [beSum, beWords]
  have hfull : beSum (pre ++ [hi, lo] ++ post) = beSum pre + beSum post + (65535 - fold) := by
    rw [List.append_assoc, beSum_append hpre, beSum_append (l := [hi, lo]) (by simp), ← hsum]
    simp only [beSum, beWords, List.sum_cons, List.sum_nil]
    omega
  have hswap := hmod.trans (leSum_modEq _)
  have hz : beSum (pre ++ [0, 0] ++ post) = 0 → fold = 0 := fun h => hzero (leSum_eq_zero.mpr h)
  rw [hplain] at hswap hz ⊢
  rw [Nat.ModEq] at hswap
  rw [verifies_iff, hfull]
  -- modulo 65535 = 255 * 257 the whole sum is -255 times the sum without the checksum
  omega

end Checksum
