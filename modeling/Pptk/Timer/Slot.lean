import Mathlib.Data.Int.Init
import Mathlib.Data.Nat.Notation
import Mathlib.Tactic.Ring

/-!
# Slots of a timer wheel

What the two timer wheels (`timerwheel/timerwheel.c`, `timerlinkheap/timerlinkwheel.c`) have in
common: the number of slots between the current one and the one a timer belongs to.
-/

namespace Pptk.Timer

/-- The cast of a `uint64_t` to `int64_t`. -/
def toInt64 (x : ℕ) : ℤ := Int.bmod x (2 ^ 64)

/-- `diff` of `timer_wheel_add` (timerwheel.c:9-15) and `timer_linkwheel_add`
(timerlinkwheel.c:9-15), in signed 64-bit arithmetic with the division of C; a negative value is
replaced by 0. -/
@[irreducible] def wheelDiff (time64 nextTime64 granularity : ℕ) : ℕ :=
  ((Int.bmod (toInt64 time64 - toInt64 nextTime64) (2 ^ 64)).tdiv granularity).toNat

theorem bmod_eq {x : ℤ} (hlo : -9223372036854775808 ≤ x) (hhi : x < 9223372036854775808) :
    Int.bmod x (2 ^ 64) = x := by
  apply Int.bmod_eq_of_le
  · norm_num
    exact hlo
  · norm_num
    exact hhi

theorem toInt64_eq {x : ℕ} (h : x < 2 ^ 63) : toInt64 x = x := by
  have hlo : (-9223372036854775808 : ℤ) ≤ x := by omega
  have hhi : (x : ℤ) < 9223372036854775808 := by omega
  unfold toInt64
  rw [bmod_eq hlo hhi]

theorem bmod_sub {t next : ℕ} (ht : t < 2 ^ 63) (hnext : next < 2 ^ 63) :
    Int.bmod (toInt64 t - toInt64 next) (2 ^ 64) = (t : ℤ) - next := by
  have hlo : (-9223372036854775808 : ℤ) ≤ t - next := by omega
  have hhi : (t : ℤ) - next < 9223372036854775808 := by omega
  rw [toInt64_eq ht, toInt64_eq hnext, bmod_eq hlo hhi]

/-- For times below `2^63` the number of slots is a quotient of natural numbers. -/
theorem wheelDiff_eq {t next : ℕ} (g : ℕ) (ht : t < 2 ^ 63) (hnext : next < 2 ^ 63) :
    wheelDiff t next g = (t - next) / g := by
  unfold wheelDiff
  rw [bmod_sub ht hnext]
  by_cases hle : next ≤ t
  · rw [← Int.ofNat_sub hle, ← Int.ofNat_tdiv, Int.toNat_natCast]
  · -- a late timer: the quotient is not positive
    rw [Nat.sub_eq_zero_of_le (by omega), Nat.zero_div, Int.toNat_eq_zero]
    have hneg : (t : ℤ) - next = -((next - t : ℕ) : ℤ) := by omega
    rw [hneg, Int.neg_tdiv, ← Int.ofNat_tdiv]
    exact Int.neg_nonpos_of_nonneg (Int.natCast_nonneg _)

/-- How many slots the slot `i` is ahead of the slot `cur` in a wheel of `size` slots. -/
def slotDist (size cur i : ℕ) : ℕ := (i + size - cur) % size

section Dist

variable {size cur i : ℕ}

theorem slotDist_self (size cur : ℕ) : slotDist size cur cur = 0 := by
  rw [slotDist, Nat.add_sub_cancel_left, Nat.mod_self]

theorem slotDist_eq (hcur : cur < size) (hi : i < size) :
    slotDist size cur i = if cur ≤ i then i - cur else i + size - cur := by
  unfold slotDist
  split_ifs with h
  · rw [show i + size - cur = i - cur + size by omega, Nat.add_mod_right,
      Nat.mod_eq_of_lt (by omega)]
  · rw [Nat.mod_eq_of_lt (by omega)]

/-- The current slot after a step (timerwheel.h:126-130). -/
def nextIdx (size cur : ℕ) : ℕ := if cur + 1 ≥ size then 0 else cur + 1

theorem nextIdx_lt (hsize : 0 < size) : nextIdx size cur < size := by
  unfold nextIdx
  split_ifs <;> omega

/-- How far a slot is ahead after a step. -/
theorem slotDist_succ (hcur : cur < size) (hi : i < size) (hne : i ≠ cur) :
    slotDist size cur i = slotDist size (nextIdx size cur) i + 1 := by
  have hlt : nextIdx size cur < size := nextIdx_lt (by omega)
  rw [slotDist_eq hcur hi, slotDist_eq hlt hi]
  unfold nextIdx
  split_ifs <;> omega

theorem slotDist_nextIdx (hcur : cur < size) : slotDist size (nextIdx size cur) cur + 1 = size := by
  have hlt : nextIdx size cur < size := nextIdx_lt (by omega)
  rw [slotDist_eq hlt hcur]
  unfold nextIdx
  split_ifs <;> omega

/-- How far a slot is ahead after an addition. -/
theorem slotDist_add (hcur : cur < size) (d : ℕ) :
    slotDist size cur ((cur + d) % size) = d % size := by
  have hsize : 0 < size := by omega
  have hlt := Nat.mod_lt (cur + d) hsize
  have hd := Nat.mod_lt d hsize
  have hsum : (cur + d) % size = if cur + d % size < size then cur + d % size
      else cur + d % size - size := by
    rw [Nat.add_mod, Nat.mod_eq_of_lt hcur]
    split_ifs with h
    · exact Nat.mod_eq_of_lt h
    · rw [Nat.mod_eq_sub_mod (by omega), Nat.mod_eq_of_lt (by omega)]
  rw [slotDist_eq hcur hlt, hsum]
  split_ifs <;> omega

end Dist

end Pptk.Timer
