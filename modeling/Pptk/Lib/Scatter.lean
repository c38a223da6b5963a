import Mathlib.Data.List.Nodup
import Mathlib.Data.List.Perm.Basic

/-!
# Things that are scattered over some places

Every thing that is live is in exactly one place, and it is there once.
-/

namespace Pptk.Lib

open Function List

variable {ι β : Type*}

/-- The lists `f` hold every live thing once, in one of them. -/
structure Scattered (f : ι → List β) (live : β → Prop) : Prop where
  nodup : ∀ i, (f i).Nodup
  unique : ∀ i j b, b ∈ f i → b ∈ f j → i = j
  live_iff : ∀ b, live b ↔ ∃ i, b ∈ f i

variable {f : ι → List β} {live live' : β → Prop} {i j : ι} {b : β} {xs ys : List β}

namespace Scattered

/-- The place of a thing. -/
theorem existsUnique (h : Scattered f live) (hb : live b) : ∃! i, b ∈ f i := by
  obtain ⟨i, hi⟩ := (h.live_iff b).mp hb
  exact ⟨i, hi, fun j hj => h.unique j i b hj hi⟩

/-- Things are moved between two places. -/
theorem redistribute {g : ι → List β} (h : Scattered f live) (hij : i ≠ j)
    (hperm : (g i ++ g j).Perm (f i ++ f j)) (hother : ∀ k, k ≠ i → k ≠ j → g k = f k) :
    Scattered g live := by
  have hnd : (g i ++ g j).Nodup := by
    refine hperm.nodup_iff.mpr (nodup_append.mpr ⟨h.nodup i, h.nodup j, fun b hb c hc hbc =>
      ?_⟩)
    subst hbc
    exact hij (h.unique i j b hb hc)
  obtain ⟨hndi, hndj, hdisj⟩ := nodup_append.mp hnd
  have hmem : ∀ b, b ∈ g i ∨ b ∈ g j ↔ b ∈ f i ∨ b ∈ f j := by
    intro b
    rw [← mem_append, ← mem_append]
    exact hperm.mem_iff
  -- a thing in one of the two places was in one of them
  have hback : ∀ k b, (k = i ∨ k = j) → b ∈ g k → b ∈ f i ∨ b ∈ f j := by
    rintro k b (rfl | rfl) hb
    · exact (hmem b).mp (.inl hb)
    · exact (hmem b).mp (.inr hb)
  have hsplit : ∀ k, (k = i ∨ k = j) ∨ k ≠ i ∧ k ≠ j := fun k => by tauto
  refine ⟨fun k => ?_, fun k l b hk hl => ?_, fun b => ?_⟩
  · rcases hsplit k with (rfl | rfl) | ⟨hki, hkj⟩
    · exact hndi
    · exact hndj
    · rw [hother k hki hkj]
      exact h.nodup k
  · rcases hsplit k with hk' | ⟨hki, hkj⟩
    · rcases hsplit l with hl' | ⟨hli, hlj⟩
      · rcases hk' with rfl | rfl <;> rcases hl' with rfl | rfl
        · rfl
        · exact absurd rfl (hdisj b hk b hl)
        · exact absurd rfl (hdisj b hl b hk)
        · rfl
      · rw [hother l hli hlj] at hl
        rcases hback k b hk' hk with hb | hb
        · exact absurd (h.unique l i b hl hb) hli
        · exact absurd (h.unique l j b hl hb) hlj
    · rw [hother k hki hkj] at hk
      rcases hsplit l with hl' | ⟨hli, hlj⟩
      · rcases hback l b hl' hl with hb | hb
        · exact absurd (h.unique k i b hk hb) hki
        · exact absurd (h.unique k j b hk hb) hkj
      · rw [hother l hli hlj] at hl
        exact h.unique k l b hk hl
  · rw [h.live_iff]
    constructor
    · rintro ⟨k, hk⟩
      rcases hsplit k with hk' | ⟨hki, hkj⟩
      · have hb : b ∈ f i ∨ b ∈ f j := by
          rcases hk' with rfl | rfl
          · exact .inl hk
          · exact .inr hk
        rcases (hmem b).mpr hb with hb | hb
        · exact ⟨i, hb⟩
        · exact ⟨j, hb⟩
      · exact ⟨k, by rw [hother k hki hkj]; exact hk⟩
    · rintro ⟨k, hk⟩
      rcases hsplit k with hk' | ⟨hki, hkj⟩
      · rcases hback k b hk' hk with hb | hb
        · exact ⟨i, hb⟩
        · exact ⟨j, hb⟩
      · exact ⟨k, by rw [← hother k hki hkj]; exact hk⟩

variable [DecidableEq ι]

/-- A thing comes into being in a place. -/
theorem add (h : Scattered f live) (hb : ¬live b) (hi : ys.Perm (b :: f i))
    (hlive : ∀ x, live' x ↔ x = b ∨ live x) : Scattered (update f i ys) live' := by
  have hnot : ∀ k, b ∉ f k := fun k hk => hb ((h.live_iff b).mpr ⟨k, hk⟩)
  have hmem : ∀ k x, x ∈ update f i ys k ↔ (k = i ∧ x = b) ∨ x ∈ f k := by
    intro k x
    by_cases hk : k = i
    · subst hk
      simp [hi.mem_iff]
    · simp [hk]
  refine ⟨fun k => ?_, fun k l x hk hl => ?_, fun x => ?_⟩
  · by_cases hk : k = i
    · subst hk
      rw [update_self]
      exact hi.nodup_iff.mpr (nodup_cons.mpr ⟨hnot k, h.nodup k⟩)
    · rw [update_of_ne hk]
      exact h.nodup k
  · rcases (hmem k x).mp hk with ⟨rfl, rfl⟩ | hk'
    · rcases (hmem l x).mp hl with ⟨rfl, -⟩ | hl'
      · rfl
      · exact absurd hl' (hnot l)
    · rcases (hmem l x).mp hl with ⟨rfl, rfl⟩ | hl'
      · exact absurd hk' (hnot k)
      · exact h.unique k l x hk' hl'
  · rw [hlive, h.live_iff]
    constructor
    · rintro (rfl | ⟨k, hk⟩)
      · exact ⟨i, (hmem i x).mpr (.inl ⟨rfl, rfl⟩)⟩
      · exact ⟨k, (hmem k x).mpr (.inr hk)⟩
    · rintro ⟨k, hk⟩
      rcases (hmem k x).mp hk with ⟨-, rfl⟩ | hk'
      · exact .inl rfl
      · exact .inr ⟨k, hk'⟩

/-- A thing is taken away from a place. -/
theorem remove (h : Scattered f live) (hi : (f i).Perm (b :: xs))
    (hlive : ∀ x, live' x ↔ x ≠ b ∧ live x) : Scattered (update f i xs) live' := by
  have hbi : b ∈ f i := hi.mem_iff.mpr (by simp)
  have hnd : b ∉ xs ∧ xs.Nodup := nodup_cons.mp (hi.nodup_iff.mp (h.nodup i))
  have hmem : ∀ k x, x ∈ update f i xs k ↔ x ≠ b ∧ x ∈ f k := by
    intro k x
    by_cases hk : k = i
    · subst hk
      rw [update_self, hi.mem_iff, mem_cons]
      constructor
      · intro hx
        exact ⟨ne_of_mem_of_not_mem hx hnd.1, .inr hx⟩
      · rintro ⟨hne, rfl | hx⟩
        · exact absurd rfl hne
        · exact hx
    · rw [update_of_ne hk]
      constructor
      · intro hx
        refine ⟨?_, hx⟩
        rintro rfl
        exact hk (h.unique k i x hx hbi)
      · exact fun hx => hx.2
  refine ⟨fun k => ?_, fun k l x hk hl => ?_, fun x => ?_⟩
  · by_cases hk : k = i
    · subst hk
      rw [update_self]
      exact hnd.2
    · rw [update_of_ne hk]
      exact h.nodup k
  · exact h.unique k l x ((hmem k x).mp hk).2 ((hmem l x).mp hl).2
  · rw [hlive, h.live_iff]
    constructor
    · rintro ⟨hne, k, hk⟩
      exact ⟨k, (hmem k x).mpr ⟨hne, hk⟩⟩
    · rintro ⟨k, hk⟩
      exact ⟨((hmem k x).mp hk).1, k, ((hmem k x).mp hk).2⟩

/-- A thing is moved to another place. -/
theorem move (h : Scattered f live) (hij : i ≠ j) (hi : (f i).Perm (b :: xs))
    (hj : ys.Perm (b :: f j)) : Scattered (update (update f i xs) j ys) live := by
  have hlive : live b := (h.live_iff b).mpr ⟨i, hi.mem_iff.mpr (by simp)⟩
  -- on the way the thing is in no place
  have hgone : Scattered (update f i xs) (fun x => x ≠ b ∧ live x) := h.remove hi fun x => Iff.rfl
  refine hgone.add (b := b) (fun hb => hb.1 rfl) ?_ fun x => ?_
  · rwa [update_of_ne (Ne.symm hij)]
  · by_cases hx : x = b
    · simp [hx, hlive]
    · simp [hx]

end Scattered

/-- A live thing that is in no place is lost. -/
theorem not_scattered (hb : live b) (hlost : ∀ i, b ∉ f i) : ¬Scattered f live := by
  intro h
  obtain ⟨i, hi⟩ := (h.live_iff b).mp hb
  exact hlost i hi

end Pptk.Lib
