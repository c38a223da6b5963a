import Mathlib.Data.List.Basic
import Mathlib.Logic.Function.Basic
import Mathlib.Tactic.Ring

/-!
# Ring buffers

A ring keeps its items in the places from `start` up to, but not including, `stop`, and one place
stays empty to tell a full ring from an empty one.
-/

namespace Pptk.Lib

open Function List

/-- A ring with its two positions. -/
structure RingBuf (α : Type*) where
  buf : ℕ → α
  cap : ℕ
  start : ℕ
  stop : ℕ
  start_lt : start < cap
  stop_lt : stop < cap

namespace RingBuf

variable {α : Type*}

/-- The place after `i`. -/
def next (cap i : ℕ) : ℕ := if i + 1 ≥ cap then 0 else i + 1

theorem next_lt {cap i : ℕ} (h : i < cap) : next cap i < cap := by
  unfold next
  split_ifs <;> omega

/-- A ring with no items. -/
def empty (cap : ℕ) (hcap : 0 < cap) (fill : α) :
    RingBuf α := ⟨fun _ => fill, cap, 0, 0, hcap, hcap⟩

def isEmpty (r : RingBuf α) : Bool := r.start == r.stop

def isFull (r : RingBuf α) : Bool := r.start == next r.cap r.stop

/-- The number of items. -/
def size (r : RingBuf α) :
    ℕ := if r.stop ≥ r.start then r.stop - r.start else r.cap + r.stop - r.start

/-- The first item. -/
def front (r : RingBuf α) : α := r.buf r.start

theorem next_start_lt (r : RingBuf α) : next r.cap r.start < r.cap := next_lt r.start_lt

def push (r : RingBuf α) (x : α) : RingBuf α :=
  { r with
    buf := update r.buf r.stop x, stop := next r.cap r.stop, stop_lt := next_lt r.stop_lt }

/-- The first item is taken away, and `null` is put in its place. -/
def pop (r : RingBuf α) (null : α) : RingBuf α :=
  { r with buf := update r.buf r.start null, start := next r.cap r.start,
           start_lt := r.next_start_lt }

/-- The place of item number `i`. -/
def place (r : RingBuf α) (i : ℕ) :
    ℕ := if r.start + i < r.cap then r.start + i else r.start + i - r.cap

/-- The items in their order. -/
def contents (r : RingBuf α) : List α := (range r.size).map fun i => r.buf (r.place i)

@[simp] theorem push_cap (r : RingBuf α) (x : α) : (r.push x).cap = r.cap := rfl

@[simp] theorem length_contents (r : RingBuf α) : r.contents.length = r.size := by
  simp [contents]

@[simp] theorem contents_empty (cap : ℕ) (hcap : 0 < cap) (fill : α) :
    (empty cap hcap fill).contents = [] := by
  simp [contents, empty, size]

theorem size_lt (r : RingBuf α) : r.size < r.cap := by
  have h1 := r.start_lt
  have h2 := r.stop_lt
  unfold size
  split_ifs <;> omega

/-- The test for an empty ring is right. -/
theorem isEmpty_iff (r : RingBuf α) : r.isEmpty = true ↔ r.contents = [] := by
  have h1 := r.start_lt
  have h2 := r.stop_lt
  rw [isEmpty, beq_iff_eq, ← length_eq_zero_iff, length_contents, size]
  split_ifs <;> omega

/-- A ring is full with one item less than its capacity. -/
theorem isFull_iff (r : RingBuf α) : r.isFull = true ↔ r.size + 1 = r.cap := by
  have h1 := r.start_lt
  have h2 := r.stop_lt
  rw [isFull, beq_iff_eq, size, next]
  split_ifs <;> omega

variable {r : RingBuf α}

theorem size_push (x : α) (h : r.isFull = false) : (r.push x).size = r.size + 1 := by
  have h1 := r.start_lt
  have h2 := r.stop_lt
  have hfull : ¬r.size + 1 = r.cap := by
    rw [← isFull_iff, h]
    simp
  unfold size at hfull
  unfold size push next
  dsimp only
  split_ifs at hfull ⊢ <;> omega

theorem size_pop (null : α) (h : r.contents ≠ []) : (r.pop null).size + 1 = r.size := by
  have h1 := r.start_lt
  have h2 := r.stop_lt
  have hne : r.start ≠ r.stop := by
    intro heq
    exact h (r.isEmpty_iff.mp (beq_iff_eq.mpr heq))
  unfold size pop next
  dsimp only
  split_ifs <;> omega

/-- An item is put at the end. -/
theorem contents_push (x : α) (h : r.isFull = false) : (r.push x).contents = r.contents ++ [x] := by
  have h1 := r.start_lt
  have h2 := r.stop_lt
  rw [contents, size_push x h, range_succ, map_append, map_singleton]
  congr 1
  · apply map_congr_left
    intro i hi
    have hi := mem_range.mp hi
    have hne : r.place i ≠ r.stop := by
      unfold size at hi
      unfold place
      split_ifs at hi ⊢ <;> omega
    exact update_of_ne hne x r.buf
  · have heq : r.place r.size = r.stop := by
      unfold place size
      split_ifs <;> omega
    have hlast : (r.push x).buf (r.place r.size) = x := by
      rw [heq]
      exact update_self r.stop x r.buf
    exact congrArg (fun y => [y]) hlast

/-- The first item is taken away. -/
theorem contents_pop (null : α) (h : r.contents ≠ []) :
    r.contents = r.front :: (r.pop null).contents := by
  have h1 := r.start_lt
  have h2 := r.stop_lt
  have hlt := r.size_lt
  rw [contents, contents, ← size_pop null h, range_succ_eq_map, map_cons, map_map]
  congr 1
  · have heq : r.place 0 = r.start := by
      unfold place
      split_ifs <;> omega
    rw [heq, front]
  · apply map_congr_left
    intro i hi
    have hi := mem_range.mp hi
    have hsize := size_pop null h
    have heq : (r.pop null).place i = r.place (i + 1) := by
      unfold place pop next
      dsimp only
      split_ifs <;> omega
    have hne : r.place (i + 1) ≠ r.start := by
      unfold place
      split_ifs <;> omega
    have hbuf : (r.pop null).buf (r.place (i + 1)) = r.buf (r.place (i + 1)) := by
      show update r.buf r.start null (r.place (i + 1)) = _
      exact update_of_ne hne null r.buf
    rw [comp_apply, heq, hbuf]

/-- If an item is put in a full ring, the ring is empty. -/
theorem contents_push_of_isFull (x : α) (h : r.isFull = true) : (r.push x).contents = [] := by
  have heq : r.start = next r.cap r.stop := beq_iff_eq.mp h
  rw [← isEmpty_iff]
  exact beq_iff_eq.mpr heq

end RingBuf

end Pptk.Lib
