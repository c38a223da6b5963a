import Mathlib.Tactic

/-!
# Byte memories

A C object of bytes is a function `ℕ → UInt8`. It is total: an index past the
end of the object reads and writes whatever lies behind it, and the theorems
that need a bound state it. Freshly allocated memory is an arbitrary function,
so a result that holds for all of them does not depend on uninitialised bytes.

* `memcpy` copies a range of one memory into another.
* `word16` and `structMem` are a little-endian 16-bit load and the bytes of a
  struct of 16-bit words; `word16_memcpy_structMem` and
  `word16_memcpy_of_disjoint` say what a load sees after a store.
-/

namespace Pptk.Lib

/-- A byte memory. -/
abbrev Mem := ℕ → UInt8

/-- `memcpy(&dst[d], &src[s], n)`. -/
def memcpy (dst : Mem) (d : ℕ) (src : Mem) (s n : ℕ) : Mem :=
  fun i => if d ≤ i ∧ i < d + n then src (s + (i - d)) else dst i

/-- A byte of the range that is copied to. -/
theorem memcpy_of_mem {dst src : Mem} {d s n i : ℕ} (h1 : d ≤ i) (h2 : i < d + n) :
    memcpy dst d src s n i = src (s + (i - d)) := by
  simp [memcpy, h1, h2]

/-- Bytes outside of the range are unchanged. -/
theorem memcpy_of_notMem {dst src : Mem} {d s n i : ℕ} (h : i < d ∨ d + n ≤ i) :
    memcpy dst d src s n i = dst i := by
  rw [memcpy, if_neg (by omega)]

/-! ## Structs of 16-bit words -/

/-- A 16-bit load at index `i` on a little-endian host. -/
def word16 (m : Mem) (i : ℕ) : ℕ := (m i).toNat + 256 * (m (i + 1)).toNat

/-- The bytes of a struct whose `k`-th 16-bit word is `w k`. -/
def structMem (w : ℕ → ℕ) : Mem :=
  fun j => UInt8.ofNat (if j % 2 = 0 then w (j / 2) else w (j / 2) / 256)

theorem word16_lt (m : Mem) (i : ℕ) : word16 m i < 65536 := by
  have h1 := (m i).toNat_lt
  have h2 := (m (i + 1)).toNat_lt
  unfold word16
  omega

/-- The words of a structure are read back from its bytes. -/
theorem word16_structMem (w : ℕ → ℕ) (k : ℕ) : word16 (structMem w) (2 * k) = w k % 65536 := by
  have h1 : (2 * k) % 2 = 0 := by omega
  have h2 : (2 * k + 1) % 2 ≠ 0 := by omega
  have h3 : 2 * k / 2 = k := by omega
  have h4 : (2 * k + 1) / 2 = k := by omega
  simp only [word16, structMem, h1, h2, h3, h4, if_true, if_false, UInt8.toNat_ofNat']
  omega

theorem word16_congr {m m' : Mem} {i j : ℕ} (h0 : m i = m' j) (h1 : m (i + 1) = m' (j + 1)) :
    word16 m i = word16 m' j := by
  rw [word16, word16, h0, h1]

/-- A word of a structure that was copied into the memory. -/
theorem word16_memcpy_structMem (m : Mem) (w : ℕ → ℕ) {i n k : ℕ} (hk : 2 * k + 2 ≤ n) :
    word16 (memcpy m i (structMem w) 0 n) (i + 2 * k) = w k % 65536 := by
  rw [← word16_structMem]
  apply word16_congr
  · rw [memcpy_of_mem (by omega) (by omega)]
    congr 1; omega
  · rw [memcpy_of_mem (by omega) (by omega)]
    congr 1; omega

theorem word16_memcpy_of_disjoint {m src : Mem} {i s n j : ℕ} (h : j + 2 ≤ i ∨ i + n ≤ j) :
    word16 (memcpy m i src s n) j = word16 m j :=
  word16_congr (memcpy_of_notMem (by omega)) (memcpy_of_notMem (by omega))

end Pptk.Lib
