import Mathlib.Data.List.Dedup
import Mathlib.Data.List.Nodup

/-!
# Records in the order of their last use

A list of records with keys, the least recently used one first. Using a record puts it last, in
place of the one with the same key; when there is no room for a new key, the first record goes.

Main result: `find_drop`.
-/

namespace Pptk.Lib.Recency

open List

variable {ρ κ : Type*} [DecidableEq κ] (key : ρ → κ)

/-- The record of a key. -/
def find (l : List ρ) (k : κ) : Option ρ := l.find? fun r => key r = k

/-- The record `r` is used. -/
def touch (l : List ρ) (r : ρ) : List ρ := l.filter (fun x => key x ≠ key r) ++ [r]

/-- The record that has to go to make room for one more. -/
def evicted (cap : ℕ) (l : List ρ) : List ρ := if cap ≤ l.length then l.head?.toList else []

/-- The records that stay. -/
def evict (cap : ℕ) (l : List ρ) : List ρ := if cap ≤ l.length then l.tail else l

/-- The keys are in the order of their last use, `used` being all uses so far. -/
def Ordered (l : List ρ) (used : List κ) : Prop := (l.map key).Sublist used.dedup

variable {key} {l : List ρ} {r : ρ} {k : κ} {used : List κ} {cap : ℕ}

theorem find_eq_none : find key l k = none ↔ k ∉ l.map key := by
  simp [find, find?_eq_none]

theorem find_sublist_eq_none {l' : List ρ} (hl : l'.Sublist l) (h : find key l k = none) :
    find key l' k = none :=
  find_eq_none.mpr fun hk => find_eq_none.mp h ((hl.map key).subset hk)

theorem Ordered.nodup (h : Ordered key l used) : (l.map key).Nodup :=
  List.Sublist.nodup h used.nodup_dedup

theorem dedup_concat (used : List κ) (k : κ) :
    (used ++ [k]).dedup = used.dedup.filter (fun x => x ≠ k) ++ [k] := by
  induction used with
  | nil => simp
  | cons a used ih =>
    by_cases ha : a ∈ used ++ [k]
    · rw [cons_append, dedup_cons_of_mem ha, ih]
      rcases mem_append.mp ha with hmem | hmem
      · rw [dedup_cons_of_mem hmem]
      · obtain rfl := mem_singleton.mp hmem
        by_cases hmem : a ∈ used
        · rw [dedup_cons_of_mem hmem]
        · rw [dedup_cons_of_notMem hmem, filter_cons_of_neg (by simp)]
    · rw [cons_append, dedup_cons_of_notMem ha, ih]
      rw [mem_append, mem_singleton, not_or] at ha
      rw [dedup_cons_of_notMem ha.1, filter_cons_of_pos (by simpa using ha.2), cons_append]

/-- Using a record puts its key last. -/
theorem Ordered.touch (h : Ordered key l used) : Ordered key (touch key l r) (used ++ [key r]) := by
  rw [Ordered, dedup_concat, Recency.touch, map_append]
  refine List.Sublist.append ?_ (List.Sublist.refl _)
  have hmap : (l.filter fun x => key x ≠ key r).map key = (l.map key).filter fun x =>
    x ≠ key r := by
    rw [filter_map]
    rfl
  rw [hmap]
  exact h.filter _

/-- Taking records out keeps the order of their last use. -/
theorem Ordered.sublist {l' : List ρ} (h : Ordered key l used) (hl : l'.Sublist l) :
    Ordered key l' used := (hl.map key).trans h

theorem evict_sublist (cap : ℕ) (l : List ρ) : (evict cap l).Sublist l := by
  rw [evict]
  split_ifs
  · exact tail_sublist l
  · exact List.Sublist.refl l

theorem evicted_append_evict (cap : ℕ) (l : List ρ) : evicted cap l ++ evict cap l = l := by
  rw [evicted, evict]
  split_ifs
  · cases l <;> rfl
  · rfl

theorem length_evict_lt (hcap : 0 < cap) (hl : l.length ≤ cap) : (evict cap l).length < cap := by
  rw [evict]
  split_ifs with h
  · rw [length_tail]
    omega
  · exact Nat.lt_of_not_le h

theorem getLast?_touch (l : List ρ) (r : ρ) : (touch key l r).getLast? = some r := getLast?_concat

theorem touch_of_getLast? (hnd : (l.map key).Nodup) (h : l.getLast? = some r) :
    touch key l r = l := by
  obtain ⟨l', rfl⟩ := getLast?_eq_some_iff.mp h
  rw [map_append, map_singleton, nodup_append] at hnd
  have hne : ∀ x ∈ l', key x ≠ key r := fun x hx => hnd.2.2 _ (mem_map_of_mem hx) _ (by simp)
  rw [touch, filter_append, filter_eq_self.mpr fun x hx => by simpa using hne x hx]
  simp

theorem mem_touch {x : ρ} (h : x ∈ touch key l r) : x ∈ l ∨ x = r := by
  rcases mem_append.mp h with h | h
  · exact .inl (mem_filter.mp h).1
  · exact .inr (mem_singleton.mp h)

theorem length_touch_le (l : List ρ) (r : ρ) : (touch key l r).length ≤ l.length + 1 := by
  rw [touch, length_append, length_singleton]
  exact Nat.succ_le_succ (length_filter_le _ _)

theorem length_touch_of_find (h : (find key l (key r)).isSome) :
    (touch key l r).length ≤ l.length := by
  obtain ⟨x, hx⟩ := Option.isSome_iff_exists.mp h
  have hlt : (l.filter fun x => key x ≠ key r).length < l.length := by
    refine length_filter_lt_length_iff_exists.mpr ⟨x, mem_of_find?_eq_some hx, ?_⟩
    have hkey : key x = key r := by simpa using find?_some hx
    simpa using hkey
  rw [touch, length_append, length_singleton]
  exact hlt

theorem touch_eq_append (h : find key l (key r) = none) : touch key l r = l ++ [r] := by
  rw [touch, filter_eq_self.mpr]
  intro x hx
  have hne : key x ≠ key r := fun he => find_eq_none.mp h (he ▸ mem_map_of_mem hx)
  simpa using hne

/-- The record that was used is found with its new value. -/
theorem find_touch_self : find key (touch key l r) (key r) = some r := by
  rw [find, touch, find?_append, find?_eq_none.mpr]
  · simp
  · intro x hx
    have := (mem_filter.mp hx).2
    simpa using this

/-- The records of other keys are found as before. -/
theorem find_touch_of_ne (h : k ≠ key r) : find key (touch key l r) k = find key l k := by
  rw [find, touch, find?_append]
  have hlast : [r].find? (fun x => decide (key x = k)) = none := by
    simpa using h.symm
  rw [hlast, Option.or_none, find?_filter]
  refine congrArg (fun p => l.find? p) (funext fun x => ?_)
  by_cases hx : key x = k
  · simp [hx, h]
  · simp [hx]

/-- When records at the front go, their keys are lost, and no others. -/
theorem find_drop {pre : List ρ} (hnd : ((pre ++ l).map key).Nodup) (k : κ) :
    find key l k = if k ∈ pre.map key then none else find key (pre ++ l) k := by
  split_ifs with h
  · rw [map_append] at hnd
    exact find_eq_none.mpr fun hk => disjoint_of_nodup_append hnd h hk
  · have hpre : pre.find? (fun r => decide (key r = k)) = none := find_eq_none.mpr h
    rw [find, find, find?_append, hpre, Option.none_or]

end Pptk.Lib.Recency
