import Pptk.Lib.RingBuf

/-!
# Rings that are never empty

A ring in which equal positions mean that all places hold an item. Such a ring is used for items
that are handed out and come back, of which at least one is never handed out.

Main results: `RingBuf.walk_start` and `Pool.receive`.
-/

namespace Pptk.Lib

open Function List

namespace RingBuf

variable {α : Type*} (r : RingBuf α)

/-- The number of items. -/
def count : ℕ := if r.start < r.stop then r.stop - r.start else r.cap + r.stop - r.start

/-- The items in their order. -/
def items : List α := (range r.count).map fun i => r.buf (r.place i)

/-- The first item is taken, and stays in its place. -/
def skip : RingBuf α := { r with start := next r.cap r.start, start_lt := r.next_start_lt }

/-- Something is stored in place of the first item. -/
def setFront (x : α) : RingBuf α := { r with buf := update r.buf r.start x }

/-- A ring with an item in every place. -/
def full (cap : ℕ) (hcap : 0 < cap) (buf : ℕ → α) : RingBuf α := ⟨buf, cap, 0, 0, hcap, hcap⟩

def pushAll (xs : List α) : RingBuf α := xs.foldl push r

def advance : RingBuf α → ℕ → RingBuf α
  | r, 0 => r
  | r, k + 1 => advance r.skip k

@[simp] theorem length_items : r.items.length = r.count := by
  simp [items]

theorem count_pos : 0 < r.count := by
  have h1 := r.start_lt
  have h2 := r.stop_lt
  unfold count
  split_ifs <;> omega

theorem count_le : r.count ≤ r.cap := by
  have h1 := r.start_lt
  have h2 := r.stop_lt
  unfold count
  split_ifs <;> omega

theorem items_full (cap : ℕ) (hcap : 0 < cap) (buf : ℕ → α) :
    (full cap hcap buf).items = (range cap).map buf := by
  have hcount : (full cap hcap buf).count = cap := by
    simp [count, full]
  rw [items, hcount]
  apply map_congr_left
  intro i hi
  have hlt : 0 + i < cap := by
    have := mem_range.mp hi
    omega
  have hplace : (full cap hcap buf).place i = 0 + i := if_pos hlt
  rw [hplace, Nat.zero_add]
  rfl

variable {r}

theorem count_push {x : α} (h : r.count < r.cap) : (r.push x).count = r.count + 1 := by
  have h1 := r.start_lt
  have h2 := r.stop_lt
  unfold count at h
  unfold count push next
  dsimp only
  split_ifs at h ⊢ <;> omega

/-- An item is put behind the others. -/
theorem items_push {x : α} (h : r.count < r.cap) : (r.push x).items = r.items ++ [x] := by
  have h1 := r.start_lt
  have h2 := r.stop_lt
  rw [items, count_push h, range_succ, map_append, map_singleton, items]
  congr 1
  · apply map_congr_left
    intro i hi
    have hi := mem_range.mp hi
    have hne : r.place i ≠ r.stop := by
      unfold count at h hi
      unfold place
      split_ifs at h hi ⊢ <;> omega
    exact update_of_ne hne x r.buf
  · have heq : r.place r.count = r.stop := by
      unfold count at h
      unfold place count
      split_ifs at h ⊢ <;> omega
    have hlast : (r.push x).buf (r.place r.count) = x := by
      rw [heq]
      exact update_self r.stop x r.buf
    exact congrArg (fun y => [y]) hlast

/-- Several items are put behind the others. -/
theorem items_pushAll {xs : List α} (h : r.count + xs.length ≤ r.cap) :
    (r.pushAll xs).items = r.items ++ xs ∧ (r.pushAll xs).cap = r.cap := by
  induction xs generalizing r with
  | nil => exact ⟨(append_nil _).symm, rfl⟩
  | cons x xs ih =>
    rw [length_cons] at h
    have hlt : r.count < r.cap := by omega
    obtain ⟨hitems, hcap⟩ :=
      ih (by rw [count_push hlt, push_cap]; omega : (r.push x).count + xs.length ≤ _)
    rw [items_push hlt, append_assoc] at hitems
    exact ⟨hitems, hcap⟩

theorem count_skip (h : 1 < r.count) : r.skip.count + 1 = r.count := by
  have h1 := r.start_lt
  have h2 := r.stop_lt
  unfold count at h
  unfold count skip next
  dsimp only
  split_ifs at h ⊢ <;> omega

/-- The first item is taken. -/
theorem items_skip (h : 1 < r.count) : r.items = r.front :: r.skip.items := by
  have h1 := r.start_lt
  have h2 := r.stop_lt
  have hle := r.count_le
  rw [items, items, ← count_skip h, range_succ_eq_map, map_cons, map_map]
  congr 1
  · have heq : r.place 0 = r.start := by
      unfold place
      split_ifs <;> omega
    rw [heq, front]
  · apply map_congr_left
    intro i hi
    have hi := mem_range.mp hi
    have heq : r.skip.place i = r.place (i + 1) := by
      have hcount := count_skip h
      unfold place skip next
      dsimp only
      split_ifs <;> omega
    rw [comp_apply, heq]
    rfl

/-- What is stored in place of the first item before it is taken does not matter. -/
theorem items_setFront_skip (x : α) (h : 1 < r.count) :
    (r.setFront x).skip.items = r.skip.items := by
  have h1 := r.start_lt
  have hle := r.count_le
  have hcount := count_skip h
  apply map_congr_left
  intro i hi
  have hi : i < r.skip.count := mem_range.mp hi
  have hne : r.skip.place i ≠ r.start := by
    unfold place skip next
    dsimp only
    split_ifs <;> omega
  exact update_of_ne hne x r.buf

/-- The first items are taken. -/
theorem items_advance {k : ℕ} (h : k < r.count) :
    (r.advance k).items = r.items.drop k ∧ (r.advance k).count + k = r.count ∧
      (r.advance k).cap = r.cap := by
  induction k generalizing r with
  | zero => exact ⟨rfl, rfl, rfl⟩
  | succ k ih =>
    have hskip := items_skip (by omega : 1 < r.count)
    have hcount := count_skip (by omega : 1 < r.count)
    obtain ⟨hitems, hcount', hcap⟩ := ih (by omega : k < r.skip.count)
    rw [advance, hskip, drop_succ_cons]
    exact ⟨hitems, by omega, hcap⟩

/-- The places that an index sees that starts at `j` and goes back to 0 at the end. -/
def walk (r : RingBuf α) : ℕ → ℕ → List α
  | _, 0 => []
  | j, n + 1 =>
    let j := if j ≥ r.cap then 0 else j
    r.buf j :: r.walk (j + 1) n

theorem walk_eq (j : ℕ) (n i : ℕ) (hj : (if j ≥ r.cap then 0 else j) = r.place i)
    (hle : i + n ≤ r.cap) : r.walk j n = (range' i n).map fun i => r.buf (r.place i) := by
  induction n generalizing j i with
  | zero => rfl
  | succ n ih =>
    have h1 := r.start_lt
    have hnext : n = 0 ∨ (if r.place i + 1 ≥ r.cap then 0 else r.place i + 1) =
      r.place (i + 1) := by
      unfold place
      split_ifs <;> omega
    rw [walk, range'_succ, map_cons, hj]
    congr 1
    rcases hnext with rfl | hnext
    · rfl
    · exact ih _ _ hnext (by omega)

/-- An index that walks through the ring from its start sees the first items. -/
theorem walk_start {n : ℕ} (h : n ≤ r.count) : r.walk r.start n = r.items.take n := by
  have h1 := r.start_lt
  have hle := r.count_le
  rw [walk_eq r.start n 0 ?_ (by omega), items, ← map_take, take_range, min_eq_left h,
    range_eq_range']
  unfold place
  split_ifs <;> omega

end RingBuf

/-! ## Items that are handed out -/

/-- Each of the items is either free or out. -/
structure Pool {ι : Type*} (all free out : List ι) : Prop where
  perm : (free ++ out).Perm all
  nodup : all.Nodup

namespace Pool

variable {ι : Type*} {all free out : List ι}

theorem nodup_append (h : Pool all free out) : (free ++ out).Nodup := h.perm.nodup_iff.mpr h.nodup

theorem not_mem_out (h : Pool all free out) {x : ι} (hx : x ∈ free) : x ∉ out :=
  fun hout => (List.nodup_append.mp h.nodup_append).2.2 x hx x hout rfl

theorem length_eq (h : Pool all free out) : free.length + out.length = all.length := by
  rw [← h.perm.length_eq, length_append]

/-- Of the first items some are handed out, and the others become free again. -/
theorem receive {first rest handed back : List ι} (h : Pool all (first ++ rest) out)
    (hfirst : (handed ++ back).Perm first) : Pool all (rest ++ back) (out ++ handed) := by
  classical
  refine ⟨perm_iff_count.mpr fun x => ?_, h.nodup⟩
  have hall := perm_iff_count.mp h.perm x
  have hx := perm_iff_count.mp hfirst x
  simp only [count_append] at hall hx ⊢
  omega

/-- Items that come back are free again. -/
theorem release [DecidableEq ι] {back : List ι} (h : Pool all free out) (hnodup : back.Nodup)
    (hmem : ∀ x ∈ back, x ∈ out) :
    Pool all (free ++ back) (out.filter fun x => x ∉ back) ∧ back.length ≤ out.length := by
  have hout : out.Nodup := (List.nodup_append.mp h.nodup_append).2.1
  have hback : back.Perm (out.filter fun x => x ∈ back) := by
    rw [List.perm_ext_iff_of_nodup hnodup (hout.filter _)]
    intro x
    rw [mem_filter, decide_eq_true_eq]
    exact ⟨fun hx => ⟨hmem x hx, hx⟩, fun hx => hx.2⟩
  have hsplit : (back ++ out.filter fun x => x ∉ back).Perm out := by
    have := filter_append_perm (fun x => decide (x ∈ back)) out
    simp only [← decide_not] at this
    exact (hback.append_right _).trans this
  constructor
  · refine ⟨?_, h.nodup⟩
    rw [append_assoc]
    exact (hsplit.append_left free).trans h.perm
  · rw [← hsplit.length_eq, length_append]
    exact Nat.le_add_right _ _

end Pool

end Pptk.Lib
