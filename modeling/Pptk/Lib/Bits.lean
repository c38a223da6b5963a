import Mathlib.Data.Nat.Bitwise
import Mathlib.Tactic.Ring
import Mathlib.Tactic.NormNum

/-!
# Masks
-/

namespace Pptk.Lib

/-- A positive number that has no bit in common with the number before it is a power of two. -/
theorem exists_two_pow_of_and_sub_one {x : ℕ} (hx : 0 < x) (hand : x &&& (x - 1) = 0) :
    ∃ k, x = 2 ^ k := by
  have hlow : 2 ^ x.log2 ≤ x := Nat.log2_self_le hx.ne'
  have hhigh : x < 2 ^ (x.log2 + 1) := Nat.lt_log2_self
  refine ⟨x.log2, ?_⟩
  by_contra hne
  -- otherwise the highest bit of `x` is also one of `x - 1`
  have hbit : (x &&& (x - 1)).testBit x.log2 = true := by
    rw [Nat.testBit_and, Nat.testBit_of_two_pow_le_and_two_pow_add_one_gt hlow hhigh,
      Nat.testBit_of_two_pow_le_and_two_pow_add_one_gt (by omega) (by omega)]
    rfl
  rw [hand] at hbit
  simp at hbit

theorem testBit_highMask {w n : ℕ} (hn : n ≤ w) (i : ℕ) :
    (2 ^ w - 2 ^ n).testBit i = (decide (n ≤ i) && decide (i < w)) := by
  have hmul : 2 ^ w - 2 ^ n = (2 ^ (w - n) - 1) * 2 ^ n := by
    rw [Nat.sub_mul, ← pow_add, one_mul]
    congr 2
    omega
  rw [hmul, Nat.testBit_mul_two_pow]
  by_cases hi : n ≤ i
  · rw [Nat.testBit_two_pow_sub_one]
    simp only [hi, decide_true, Bool.true_and]
    congr 1
    apply propext
    omega
  · simp [hi]

/-- To clear the low bits of a number of `w` bits is to round it down. -/
theorem and_highMask {w n a : ℕ} (hn : n ≤ w) (ha : a < 2 ^ w) :
    a &&& (2 ^ w - 2 ^ n) = a / 2 ^ n * 2 ^ n := by
  apply Nat.eq_of_testBit_eq
  intro i
  rw [Nat.testBit_and, testBit_highMask hn, Nat.testBit_mul_two_pow, Nat.testBit_div_two_pow]
  by_cases hi : n ≤ i
  · by_cases hw : i < w
    · simp [hi, hw]
    · have hzero : a.testBit i = false :=
        Nat.testBit_lt_two_pow (lt_of_lt_of_le ha (Nat.pow_le_pow_right (by omega) (by omega)))
      simp [hi, hw, hzero]
  · simp [hi]

/-- Numbers whose high bits agree have the same quotient. -/
theorem div_two_pow_eq_of_testBit {w n a b : ℕ} (ha : a < 2 ^ w) (hb : b < 2 ^ w)
    (h : ∀ i, n ≤ i → i < w → a.testBit i = b.testBit i) : a / 2 ^ n = b / 2 ^ n := by
  apply Nat.eq_of_testBit_eq
  intro i
  rw [Nat.testBit_div_two_pow, Nat.testBit_div_two_pow]
  by_cases hi : i + n < w
  · exact h _ (by omega) hi
  · have hpow : 2 ^ w ≤ 2 ^ (i + n) := Nat.pow_le_pow_right (by omega) (by omega)
    rw [Nat.testBit_lt_two_pow (lt_of_lt_of_le ha hpow),
      Nat.testBit_lt_two_pow (lt_of_lt_of_le hb hpow)]

end Pptk.Lib
