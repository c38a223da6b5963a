import Mathlib.Data.Nat.Digits.Lemmas
import Mathlib.Data.List.Range
import Mathlib.Tactic.Ring

/-!
# Numbers of several bytes
-/

namespace Pptk.Lib

open List

/-! ## Bytes of a number -/

/-- The number of some bytes, least significant byte first. -/
def leNat : List UInt8 → ℕ
  | [] => 0
  | b :: bs => b.toNat + 256 * leNat bs

/-- The lowest `k` bytes of a number, least significant byte first. -/
def leBytes : ℕ → ℕ → List UInt8
  | 0, _ => []
  | k + 1, v => UInt8.ofNat v :: leBytes k (v / 256)

@[simp] theorem length_leBytes (k v : ℕ) : (leBytes k v).length = k := by
  induction k generalizing v with
  | zero => rfl
  | succ k ih => rw [leBytes, length_cons, ih]

theorem leNat_lt (bs : List UInt8) : leNat bs < 256 ^ bs.length := by
  induction bs with
  | nil => simp [leNat]
  | cons b bs ih =>
    have hb := b.toNat_lt
    rw [leNat, length_cons, pow_succ]
    omega

variable {k : ℕ} {bs as : List UInt8}

/-- The number of the bytes of a number. -/
theorem leNat_leBytes {v : ℕ} (hv : v < 256 ^ k) : leNat (leBytes k v) = v := by
  induction k generalizing v with
  | zero => simp at hv; rw [hv, leBytes, leNat]
  | succ k ih =>
    have hdiv : v / 256 < 256 ^ k := by
      rw [pow_succ] at hv
      omega
    rw [leBytes, leNat, ih hdiv, UInt8.toNat_ofNat']
    omega

/-- The bytes of the number of some bytes. -/
theorem leBytes_leNat (bs : List UInt8) : leBytes bs.length (leNat bs) = bs := by
  induction bs with
  | nil => rfl
  | cons b bs ih =>
    have hb := b.toNat_lt
    have hdiv : (b.toNat + 256 * leNat bs) / 256 = leNat bs := by omega
    rw [leNat, length_cons, leBytes, hdiv, ih]
    congr 1
    apply UInt8.toNat_inj.mp
    rw [UInt8.toNat_ofNat']
    omega

/-- A number of `k` bytes with its bytes swapped. -/
def byteswap (k v : ℕ) : ℕ := leNat (leBytes k v).reverse

/-- Swapping the bytes of a number is to read its bytes backwards. -/
theorem byteswap_leNat (hk : bs.length = k) : byteswap k (leNat bs) = leNat bs.reverse := by
  rw [byteswap, ← hk, leBytes_leNat]

theorem byteswap_lt {v : ℕ} : byteswap k v < 256 ^ k := by
  have h := leNat_lt (leBytes k v).reverse
  rwa [length_reverse, length_leBytes] at h

/-! ## Parts of a byte string -/

/-- The `k` bytes at the offset `off`. -/
def slice (bs : List UInt8) (off k : ℕ) : List UInt8 := (bs.drop off).take k

/-- A part of the first of two byte strings. -/
theorem slice_append_left (hk : as.length = k) : slice (as ++ bs) 0 k = as := by
  rw [slice, drop_zero, ← hk]
  exact take_left

/-- A part of the second of two byte strings. -/
theorem slice_append_right {n off : ℕ} (hn : as.length = n) (hle : n ≤ off) :
    slice (as ++ bs) off k = slice bs (off - n) k := by
  rw [slice, slice, drop_append, drop_eq_nil_of_le (by omega), nil_append, hn]

theorem slice_self (hk : as.length = k) : slice as 0 k = as := by
  rw [slice, drop_zero, ← hk, take_length]

end Pptk.Lib
