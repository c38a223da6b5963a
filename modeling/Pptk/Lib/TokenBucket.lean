import Pptk.Lib.Machine
import Mathlib.Logic.Function.Basic

/-!
# Token buckets

A family of buckets, each of which holds at most `cap` tokens. A refill adds `add` tokens to each
bucket of a set, up to `cap`.

Main result: `refills_once`.
-/

namespace Pptk.Lib

open Function List

variable {ι : Type*} [DecidableEq ι]

/-- What is done to the buckets. -/
inductive BucketOp (ι : Type*) where
  | take (i : ι)
  | give (i : ι)
  | refill (S : ι → Bool)

/-- The buckets afterwards, and for a take whether there was a token. -/
def BucketOp.apply (cap add : ℕ) (b : ι → ℕ) : BucketOp ι → (ι → ℕ) × Option Bool
  | take i => if b i = 0 then (b, some false) else (update b i (b i - 1), some true)
  | give i => (if cap ≤ b i then b else update b i (b i + 1), none)
  | refill S => (fun i => if S i then min cap (b i + add) else b i, none)

variable {cap add : ℕ} {b : ι → ℕ}

/-- No bucket holds more than `cap` tokens. -/
theorem BucketOp.apply_le (hb : ∀ i, b i ≤ cap) (op : BucketOp ι) (i : ι) :
    (op.apply cap add b).1 i ≤ cap := by
  have hi := hb i
  cases op with
  | take j =>
    unfold BucketOp.apply
    dsimp only
    split_ifs with h
    · exact hi
    · rcases eq_or_ne i j with rfl | hij
      · simp only [update_self]
        omega
      · simp only [update_of_ne hij]
        exact hi
  | give j =>
    unfold BucketOp.apply
    dsimp only
    split_ifs with h
    · exact hi
    · rcases eq_or_ne i j with rfl | hij
      · rw [update_self]
        omega
      · rw [update_of_ne hij]
        exact hi
  | refill S =>
    unfold BucketOp.apply
    dsimp only
    split_ifs with h
    · exact Nat.min_le_left _ _
    · exact hi

theorem refills_none {Ss : List (ι → Bool)} {i : ι} (hi : Ss.countP (· i) = 0) :
    (runAll (BucketOp.apply cap add) b (Ss.map .refill)).1 i = b i := by
  induction Ss generalizing b with
  | nil => rfl
  | cons S Ss ih =>
    rw [countP_cons] at hi
    have hS : S i = false := by
      rw [Bool.eq_false_iff]
      intro h
      simp [h] at hi
    rw [map_cons, runAll]
    dsimp only
    rw [ih (by omega)]
    simp [BucketOp.apply, hS]

/-- A bucket in one of the sets is refilled once. -/
theorem refills_once {Ss : List (ι → Bool)} {i : ι} (hi : Ss.countP (· i) = 1) :
    (runAll (BucketOp.apply cap add) b (Ss.map .refill)).1 i = min cap (b i + add) := by
  induction Ss generalizing b with
  | nil => simp at hi
  | cons S Ss ih =>
    rw [countP_cons] at hi
    rw [map_cons, runAll]
    dsimp only
    cases hS : S i with
    | true =>
      rw [hS, if_pos rfl] at hi
      rw [refills_none (by omega)]
      simp [BucketOp.apply, hS]
    | false =>
      rw [hS, if_neg Bool.false_ne_true] at hi
      rw [ih (by omega)]
      simp [BucketOp.apply, hS]

end Pptk.Lib
