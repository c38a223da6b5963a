import Pptk.Lib.Mem

/-!
# One's-complement sums of 16-bit words

Sums of 16-bit words in which a carry out of the word is added back in. They are
integer sums up to the multiples of `2^16 - 1`, except that there are two zeros: a sum
of zeros is `0`, and any other multiple of `2^16 - 1` is `0xffff`. `foldCarry` is the
word that an integer sum folds to.
-/

namespace Pptk.Lib

/-- Addition of 16-bit words with an end-around carry. -/
def onesAdd (a b : ℕ) : ℕ := if a + b < 65536 then a + b else a + b - 65535

/-- The one's-complement sum of 16-bit words. -/
def onesSum (ws : List ℕ) : ℕ := ws.foldl onesAdd 0

/-- The word that an integer sum folds to. -/
def foldCarry (n : ℕ) : ℕ := if n = 0 then 0 else (n - 1) % 65535 + 1

theorem foldCarry_zero : foldCarry 0 = 0 := rfl

theorem foldCarry_le (n : ℕ) : foldCarry n ≤ 65535 := by
  unfold foldCarry
  split_ifs <;> omega

theorem foldCarry_mod (n : ℕ) : foldCarry n % 65535 = n % 65535 := by
  unfold foldCarry
  split_ifs <;> omega

theorem foldCarry_pos {n : ℕ} (h : 0 < n) : 0 < foldCarry n := by
  rw [foldCarry, if_neg (by omega)]
  omega

/-- The word of a positive sum is the one from 1 to `0xffff` with the same remainder. -/
theorem foldCarry_unique {n c : ℕ} (hn : 0 < n) (hc : 0 < c) (hle : c ≤ 65535)
    (h : c % 65535 = n % 65535) : foldCarry n = c := by
  have h1 := foldCarry_mod n
  have h2 := foldCarry_pos hn
  have h3 := foldCarry_le n
  omega

theorem onesAdd_foldCarry {a b : ℕ} (hb : b ≤ 65535) :
    onesAdd (foldCarry a) b = foldCarry (a + b) := by
  have h1 := foldCarry_mod a
  have h2 := foldCarry_le a
  rcases Nat.eq_zero_or_pos a with ha | ha
  · subst ha
    rcases Nat.eq_zero_or_pos b with hb0 | hb0
    · subst hb0
      rfl
    · rw [foldCarry_zero, onesAdd, if_pos (by omega), Nat.zero_add]
      exact (foldCarry_unique hb0 hb0 hb rfl).symm
  · have h3 := foldCarry_pos ha
    symm
    rw [onesAdd]
    split_ifs with hlt
    · exact foldCarry_unique (by omega) (by omega) (by omega) (by omega)
    · exact foldCarry_unique (by omega) (by omega) (by omega) (by omega)

/-- Adding word by word and folding at the end give the same word. -/
theorem onesSum_eq {ws : List ℕ} (h : ∀ w ∈ ws, w ≤ 65535) : onesSum ws = foldCarry ws.sum := by
  have hfold : ∀ (ws : List ℕ) (a : ℕ), (∀ w ∈ ws, w ≤ 65535) →
      ws.foldl onesAdd (foldCarry a) = foldCarry (a + ws.sum) := by
    intro ws
    induction ws with
    | nil => simp
    | cons w ws ih =>
      intro a hw
      rw [List.foldl_cons, onesAdd_foldCarry (hw w (by simp)), ih _ fun x hx => hw x (by simp [hx]),
        List.sum_cons, Nat.add_assoc]
  simpa [onesSum, foldCarry_zero] using hfold ws 0 h

theorem foldCarry_eq_max {n : ℕ} : foldCarry n = 65535 ↔ 0 < n ∧ n % 65535 = 0 := by
  have h1 := foldCarry_mod n
  constructor
  · intro h
    refine ⟨Nat.pos_of_ne_zero ?_, by omega⟩
    rintro rfl
    simp [foldCarry_zero] at h
  · rintro ⟨hpos, hmod⟩
    exact foldCarry_unique hpos (by omega) le_rfl (by omega)

/-- The complement of a positive sum is the word other than `0xffff` that makes the sum a multiple
of `2^16 - 1`. -/
theorem eq_complement_iff {rest c : ℕ} (hrest : 0 < rest) (hc : c ≤ 65535) :
    c = 65535 - foldCarry rest ↔ c ≠ 65535 ∧ (rest + c) % 65535 = 0 := by
  have h1 := foldCarry_mod rest
  have h2 := foldCarry_pos hrest
  have h3 := foldCarry_le rest
  omega

/-! ## The words of a memory range -/

/-- The big-endian 16-bit words of `n` bytes from index `i`; an odd last byte is padded with a zero
byte. -/
def words (m : Mem) (i : ℕ) : ℕ → List ℕ
  | 0 => []
  | 1 => [256 * (m i).toNat]
  | n + 2 => (256 * (m i).toNat + (m (i + 1)).toNat) :: words m (i + 2) n

/-- The integer sum of the words. -/
def wordSum (m : Mem) (i n : ℕ) : ℕ := (words m i n).sum

variable {m m' : Mem} {i i' n : ℕ}

@[simp] theorem wordSum_zero : wordSum m i 0 = 0 := rfl

theorem words_le : ∀ w ∈ words m i n, w ≤ 65535 := by
  fun_induction words m i n with
  | case1 => simp
  | case2 i =>
    have := (m i).toNat_lt
    simp
    omega
  | case3 i n ih =>
    have := (m i).toNat_lt
    have := (m (i + 1)).toNat_lt
    intro w hw
    rcases List.mem_cons.mp hw with rfl | hw
    · omega
    · exact ih w hw

theorem words_congr (h : ∀ j < n, m (i + j) = m' (i' + j)) : words m i n = words m' i' n := by
  fun_induction words m i n generalizing i' with
  | case1 => rfl
  | case2 i => rw [words, show m i = m' i' from h 0 (by omega)]
  | case3 i n ih =>
    have h0 : m i = m' i' := h 0 (by omega)
    have h1 : m (i + 1) = m' (i' + 1) := h 1 (by omega)
    rw [words, h0, h1, ih fun j hj => ?_]
    have := h (j + 2) (by omega)
    rwa [show i + (j + 2) = i + 2 + j by omega, show i' + (j + 2) = i' + 2 + j by omega] at this

theorem wordSum_congr (h : ∀ j < n, m (i + j) = m' (i' + j)) : wordSum m i n = wordSum m' i' n := by
  rw [wordSum, words_congr h, wordSum]

/-- The sum of a range in two parts. -/
theorem wordSum_append (m : Mem) (i k n : ℕ) :
    wordSum m i (2 * k + n) = wordSum m i (2 * k) + wordSum m (i + 2 * k) n := by
  induction k generalizing i with
  | zero => simp
  | succ k ih =>
    have hw := ih (i + 2)
    simp only [wordSum] at hw ⊢
    rw [show 2 * (k + 1) + n = 2 * k + n + 2 by omega, show 2 * (k + 1) = 2 * k + 2 by omega, words,
      words, List.sum_cons, List.sum_cons, hw, show i + (2 * k + 2) = i + 2 + 2 * k by omega]
    exact (Nat.add_assoc ..).symm

/-- The sum after a change of some of the words. -/
theorem wordSum_frame {a b : ℕ} (hn : 2 * (a + b) ≤ n)
    (h : ∀ j < n, j < 2 * a ∨ 2 * (a + b) ≤ j → m' (i + j) = m (i + j)) :
    wordSum m' i n + wordSum m (i + 2 * a) (2 * b) = wordSum m i n + wordSum m' (i + 2 * a)
      (2 * b) := by
  obtain ⟨r, rfl⟩ : ∃ r, n = 2 * a + (2 * b + r) := ⟨n - 2 * (a + b), by omega⟩
  have hbefore : wordSum m' i (2 * a) = wordSum m i (2 * a) :=
    wordSum_congr fun j hj => h j (by omega) (by omega)
  have hafter : wordSum m' (i + 2 * a + 2 * b) r = wordSum m (i + 2 * a + 2 * b) r :=
    wordSum_congr fun j hj => by
      have := h (2 * a + 2 * b + j) (by omega) (by omega)
      rwa [← Nat.add_assoc, ← Nat.add_assoc] at this
  simp only [wordSum_append, hbefore, hafter]
  omega

end Pptk.Lib
