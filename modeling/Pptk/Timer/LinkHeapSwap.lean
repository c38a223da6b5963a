import Mathlib.Logic.Equiv.Basic
import Pptk.Timer.LinkHeap

/-!
# Swapping two nodes of a linked heap

`timer_linkheap_swap_parentchild` and `timer_linkheap_swap` relink two nodes so that each gets the
place of the other. In the links this is a renaming of all nodes by the transposition of the two
(`Swapped`), whether they are parent and child, siblings or neither, and whether one is the root.
-/

namespace Pptk.Timer

open Function Option

namespace LinkHeap

/-- The nodes of `S` are linked with each other: links to children and parents agree. -/
structure LinkedOn (h : LinkHeap) (S : ℕ → Prop) : Prop where
  left : ∀ k c, S k → h.left k = some c → S c ∧ h.parent c = some k
  right : ∀ k c, S k → h.right k = some c → S c ∧ h.parent c = some k
  parent : ∀ k p, S k → h.parent k = some p → S p ∧ (h.left p = some k ∨ h.right p = some k)
  ne : ∀ k c, S k → h.left k = some c → h.right k ≠ some c
  full : ∀ k, S k → h.left k = none → h.right k = none
  root : ∀ k, S k → (h.parent k = none ↔ h.root = some k)
  root_mem : ∀ k, h.root = some k → S k
  irrefl : ∀ k, S k → h.parent k ≠ some k
  asymm : ∀ k p, S k → h.parent k = some p → h.parent p ≠ some k

/-- The nodes outside `S` have the same links. -/
def SameOutside (S : ℕ → Prop) (h h' : LinkHeap) : Prop :=
  ∀ k, ¬S k → h'.left k = h.left k ∧ h'.right k = h.right k ∧ h'.parent k = h.parent k

/-- `x` and `y` have changed places. -/
structure Swapped (x y : ℕ) (S : ℕ → Prop) (h h' : LinkHeap) : Prop where
  left : ∀ k, S k → h'.left k = (h.left (Equiv.swap x y k)).map (Equiv.swap x y)
  right : ∀ k, S k → h'.right k = (h.right (Equiv.swap x y k)).map (Equiv.swap x y)
  parent : ∀ k, S k → h'.parent k = (h.parent (Equiv.swap x y k)).map (Equiv.swap x y)
  root : h'.root = h.root.map (Equiv.swap x y)
  frame : SameOutside S h h'
  time64 : h'.time64 = h.time64
  size : h'.size = h.size

theorem Swapped.comm {x y : ℕ} {S : ℕ → Prop} {h h' : LinkHeap} (hs : Swapped x y S h h') :
    Swapped y x S h h' := by
  exact ⟨by rw [Equiv.swap_comm]; exact hs.left, by rw [Equiv.swap_comm]; exact hs.right,
    by rw [Equiv.swap_comm]; exact hs.parent, by rw [Equiv.swap_comm]; exact hs.root, hs.frame,
    hs.time64, hs.size⟩

section Steps

variable {h : LinkHeap} {c : Option ℕ} {k : ℕ}

@[simp] theorem adopt_left : (h.adopt c k).left = h.left := by cases c <;> rfl

@[simp] theorem adopt_right : (h.adopt c k).right = h.right := by cases c <;> rfl

@[simp] theorem adopt_root : (h.adopt c k).root = h.root := by cases c <;> rfl

@[simp] theorem adopt_time64 : (h.adopt c k).time64 = h.time64 := by cases c <;> rfl

@[simp] theorem adopt_size : (h.adopt c k).size = h.size := by cases c <;> rfl

theorem adopt_parent (j : ℕ) :
    (h.adopt c k).parent j = if c = some j then some k else h.parent j := by
  cases c with
  | none => simp [adopt]
  | some c => simp [adopt, update_apply, eq_comm]

/-- The parent of `new` points to it instead of to `old`. -/
theorem replaceChild_spec (new old : ℕ)
    (hq : ∀ p, h.parent new = some p → h.left p = some old ∨ h.right p = some old) :
    ∃ h', h.replaceChild new old = some h' ∧ h'.parent = h.parent ∧ h'.time64 = h.time64 ∧
      h'.size = h.size ∧ h'.root = (if h.parent new = none then some new else h.root) ∧
      (∀ k, h'.left k =
        if h.parent new = some k ∧ h.left k = some old then some new else h.left k) ∧
      (∀ k, h'.right k =
        if h.parent new = some k ∧ h.left k ≠ some old then some new else h.right k) := by
  unfold replaceChild
  cases hp : h.parent new with
  | none => exact ⟨_, rfl, rfl, rfl, rfl, by simp, by simp, by simp⟩
  | some p =>
    simp only [reduceCtorEq, if_false]
    by_cases h1 : h.left p = some old
    · rw [if_pos h1]
      refine ⟨_, rfl, rfl, rfl, rfl, rfl, fun k => ?_, fun k => ?_⟩
      · simp only [update_apply]
        grind
      · grind
    · rw [if_neg h1, if_pos ((hq p hp).resolve_left h1)]
      refine ⟨_, rfl, rfl, rfl, rfl, rfl, fun k => ?_, fun k => ?_⟩
      · grind
      · simp only [update_apply]
        grind

end Steps

section Swap

variable {h : LinkHeap} {S : ℕ → Prop} {p c : ℕ}

/-- The swap of a node with its left child. -/
theorem swapParentchild_left (hl : h.LinkedOn S) (hp : S p) (hpc : h.left p = some c) :
    ∃ h', h.swapParentchild p c = some h' ∧ Swapped p c S h h' := by
  obtain ⟨hc, hcp⟩ := hl.left p c hp hpc
  have hne : p ≠ c := by
    rintro rfl
    exact hl.irrefl _ hp hcp
  obtain ⟨f1, f2, f3, f4, -, f5, f6, f7, f8⟩ := hl
  unfold swapParentchild
  rw [if_neg (by simpa using hcp), if_pos hpc]
  simp only
  generalize hh : LinkHeap.mk _ _ _ _ _ _ = h1
  obtain ⟨h', heq, e1, e2, e3, e4, e5, e6⟩ := replaceChild_spec c p
    (h := ((h1.adopt (h.left c) p).adopt (h.right c) p).adopt (h.right p) c) (by
      subst hh
      simp only [adopt_parent, adopt_left, adopt_right, update_apply]
      grind)
  subst hh
  simp only [adopt_parent, adopt_left, adopt_right, adopt_root, adopt_time64, adopt_size,
    update_apply] at e2 e3 e4 e5 e6
  -- where a link can point to one of the two nodes follows from the links being consistent
  refine ⟨h', heq, fun k hk => ?_, fun k hk => ?_, fun k hk => ?_, ?_, fun k hk => ?_, e2, e3⟩
  · simp only [Equiv.swap_apply_def, e5]
    rcases hk' : h.left k with _ | d <;> rcases hc' : h.left c with _ | e <;> grind
  · simp only [Equiv.swap_apply_def, e6]
    rcases hk' : h.right k with _ | d <;> rcases hc' : h.right c with _ | e <;>
      rcases hp' : h.right p with _ | f <;> grind
  · simp only [Equiv.swap_apply_def, e1, adopt_parent, update_apply]
    rcases hk' : h.parent k with _ | d <;> rcases hp' : h.parent p with _ | f <;> grind
  · rw [e4]
    rcases hr : h.root with _ | d <;> grind
  · rw [e1, e5, e6]
    simp only [adopt_parent, update_apply]
    grind

/-- The swap of a node with its right child. -/
theorem swapParentchild_right (hl : h.LinkedOn S) (hp : S p) (hpc : h.right p = some c) :
    ∃ h', h.swapParentchild p c = some h' ∧ Swapped p c S h h' := by
  obtain ⟨hc, hcp⟩ := hl.right p c hp hpc
  have hne : p ≠ c := by
    rintro rfl
    exact hl.irrefl _ hp hcp
  have hnl : h.left p ≠ some c := fun h1 => hl.ne p c hp h1 hpc
  obtain ⟨f1, f2, f3, f4, -, f5, f6, f7, f8⟩ := hl
  unfold swapParentchild
  rw [if_neg (by simpa using hcp), if_neg hnl, if_pos hpc]
  simp only
  generalize hh : LinkHeap.mk _ _ _ _ _ _ = h₁
  obtain ⟨h', heq, e1, e2, e3, e4, e5, e6⟩ := replaceChild_spec c p
    (h := ((h₁.adopt (h.left c) p).adopt (h.right c) p).adopt (h.left p) c) (by
      subst hh
      simp only [adopt_parent, adopt_left, adopt_right, update_apply]
      grind)
  subst hh
  simp only [adopt_parent, adopt_left, adopt_right, adopt_root, adopt_time64, adopt_size,
    update_apply] at e2 e3 e4 e5 e6
  refine ⟨h', heq, fun k hk => ?_, fun k hk => ?_, fun k hk => ?_, ?_, fun k hk => ?_, e2, e3⟩
  · simp only [Equiv.swap_apply_def, e5]
    rcases hk' : h.left k with _ | d <;> rcases hc' : h.left c with _ | e <;>
      rcases hp' : h.left p with _ | f <;> grind
  · simp only [Equiv.swap_apply_def, e6]
    rcases hk' : h.right k with _ | d <;> rcases hc' : h.right c with _ | e <;> grind
  · simp only [Equiv.swap_apply_def, e1, adopt_parent, update_apply]
    rcases hk' : h.parent k with _ | d <;> rcases hp' : h.parent p with _ | f <;> grind
  · rw [e4]
    rcases hr : h.root with _ | d <;> grind
  · rw [e1, e5, e6]
    simp only [adopt_parent, update_apply]
    grind

/-- Swapping a child with its parent. -/
theorem swapParentchild_spec (hl : h.LinkedOn S) (hc : S c) (hcp : h.parent c = some p) :
    ∃ h', h.swapParentchild p c = some h' ∧ Swapped p c S h h' := by
  obtain ⟨hp, hpc | hpc⟩ := hl.parent c p hc hcp
  · exact swapParentchild_left hl hp hpc
  · exact swapParentchild_right hl hp hpc

end Swap

section General

variable {h : LinkHeap} {S : ℕ → Prop} {x y : ℕ}

theorem adopted_parent (hl : h.LinkedOn S) (hx : S x) (hy : S y) (hne : x ≠ y)
    (hxy : h.parent x ≠ some y) (hyx : h.parent y ≠ some x) {k : ℕ} (hk : S k) :
    (if h.right x = some k then some y else if h.left x = some k then some y
      else if h.right y = some k then some x else if h.left y = some k then some x
      else if k = y then h.parent x else if k = x then h.parent y else h.parent k) =
      (h.parent (Equiv.swap x y k)).map (Equiv.swap x y) := by
  obtain ⟨f1, f2, f3, f4, -, f5, f6, f7, f8⟩ := hl
  simp only [Equiv.swap_apply_def]
  by_cases hkx : k = x
  · subst hkx
    rcases hy' : h.parent y with _ | f <;> grind
  · by_cases hky : k = y
    · subst hky
      rcases hx' : h.parent x with _ | f <;> grind
    · simp only [if_neg hkx, if_neg hky]
      rcases hk' : h.parent k with _ | d
      · grind
      · simp only [map_some, Equiv.swap_apply_def]
        grind

/-- The swap of two children of one node. -/
theorem swap_siblings (hl : h.LinkedOn S) (hx : S x) (hy : S y) (hne : x ≠ y) {p : ℕ}
    (hxp : h.parent x = some p) (hyp : h.parent y = some p) :
    ∃ h', h.swap x y = some h' ∧ Swapped x y S h h' := by
  obtain ⟨hp, hpx⟩ := hl.parent x p hx hxp
  obtain ⟨-, hpy⟩ := hl.parent y p hy hyp
  have hpx' : p ≠ x := by
    rintro rfl
    exact hl.irrefl _ hx hxp
  have hpy' : p ≠ y := by
    rintro rfl
    exact hl.irrefl _ hy hyp
  have hxy : h.parent x ≠ some y := by simp [hxp, hpy']
  have hyx : h.parent y ≠ some x := by simp [hyp, hpx']
  have hpar := fun k => adopted_parent (k := k) hl hx hy hne hxy hyx
  obtain ⟨f1, f2, f3, f4, -, f5, f6, f7, f8⟩ := hl
  unfold swap
  rw [if_neg hxy, if_neg hyx]
  simp only [hxp, hyp, if_true, map_some]
  refine ⟨_, rfl, fun k hk => ?_, fun k hk => ?_, fun k hk => ?_, ?_, fun k hk => ?_, ?_, ?_⟩
  · clear hpar
    simp only [adopt_left, Equiv.swap_apply_def, update_apply]
    rcases hk' : h.left k with _ | d <;> rcases hx' : h.left x with _ | e <;>
      rcases hy' : h.left y with _ | f <;> grind
  · clear hpar
    simp only [adopt_right, Equiv.swap_apply_def, update_apply]
    rcases hk' : h.right k with _ | d <;> rcases hx' : h.right x with _ | e <;>
      rcases hy' : h.right y with _ | f <;> grind
  · simp only [adopt_parent, update_apply]
    rw [← hpar k hk, hxp, hyp]
  · clear hpar
    simp only [adopt_root]
    rcases hr : h.root with _ | d <;> grind
  · clear hpar
    simp only [adopt_parent, adopt_left, adopt_right, update_apply]
    grind
  · simp only [adopt_time64]
  · simp only [adopt_size]

/-- The swap of two nodes that are not related. -/
theorem swap_distant (hl : h.LinkedOn S) (hx : S x) (hy : S y) (hne : x ≠ y)
    (hxy : h.parent x ≠ some y) (hyx : h.parent y ≠ some x) (hsib : h.parent x ≠ h.parent y) :
    ∃ h', h.swap x y = some h' ∧ Swapped x y S h h' := by
  have hpar := fun k => adopted_parent (k := k) hl hx hy hne hxy hyx
  obtain ⟨f1, f2, f3, f4, -, f5, f6, f7, f8⟩ := hl
  unfold swap
  rw [if_neg hxy, if_neg hyx]
  simp only
  rw [if_neg hsib]
  generalize hh : LinkHeap.mk _ _ _ _ _ _ = h1
  obtain ⟨h2, heq, a1, a2, a3, a4, a5, a6⟩ := replaceChild_spec (h := h1) y x (by
    clear hpar
    subst hh
    simp only [update_apply]
    grind)
  obtain ⟨h3, heq', b1, b2, b3, b4, b5, b6⟩ := replaceChild_spec (h := h2) x y (by
    clear hpar
    subst hh
    simp only [update_apply] at a1 a5 a6
    simp only [a1, a5, a6, update_apply]
    grind)
  rw [heq, bind_some, heq', map_some]
  subst hh
  simp only [update_apply, if_true, if_neg hne.symm] at a4 a5 a6
  simp only [a1, update_apply, a4, a5, a6, if_true, if_neg hne] at b4 b5 b6
  refine ⟨_, rfl, fun k hk => ?_, fun k hk => ?_, fun k hk => ?_, ?_, fun k hk => ?_, ?_, ?_⟩
  · clear hpar a4 a5 a6 b4 b6
    simp only [adopt_left, Equiv.swap_apply_def, b5]
    by_cases hkx : k = x
    · rcases hy' : h.left y with _ | f <;> grind
    · by_cases hky : k = y
      · rcases hx' : h.left x with _ | f <;> grind
      · rcases hk' : h.left k with _ | d <;> grind
  · clear hpar a4 a5 a6 b4 b5
    simp only [adopt_right, Equiv.swap_apply_def, b6]
    by_cases hkx : k = x
    · rcases hy' : h.right y with _ | f <;> grind
    · by_cases hky : k = y
      · rcases hx' : h.right x with _ | f <;> grind
      · rcases hk' : h.right k with _ | d <;> grind
  · simp only [adopt_parent, b1, a1, update_apply]
    exact hpar k hk
  · clear hpar a5 a6 b5 b6
    simp only [adopt_root, b4]
    rcases hr : h.root with _ | d <;> grind
  · clear hpar a4 a5 a6 b4
    simp only [adopt_parent, adopt_left, adopt_right, b1, a1, b5, b6, update_apply]
    grind
  · simp only [adopt_time64, b2, a2]
  · simp only [adopt_size, b3, a3]

/-- Swapping any two nodes, which does not abort. -/
theorem swap_spec (hl : h.LinkedOn S) (hx : S x) (hy : S y) (hne : x ≠ y) :
    ∃ h', h.swap x y = some h' ∧ Swapped x y S h h' := by
  by_cases hxy : h.parent x = some y
  · obtain ⟨h', heq, hs⟩ := swapParentchild_spec hl hx hxy
    exact ⟨h', by rw [swap, if_pos hxy, heq], hs.comm⟩
  · by_cases hyx : h.parent y = some x
    · obtain ⟨h', heq, hs⟩ := swapParentchild_spec hl hy hyx
      exact ⟨h', by rw [swap, if_neg hxy, if_pos hyx, heq], hs⟩
    · by_cases hsib : h.parent x = h.parent y
      · cases hp : h.parent x with
        | none =>
          -- there is one root only
          have h1 := (hl.root x hx).mp hp
          have h2 := (hl.root y hy).mp (hsib ▸ hp)
          exact absurd (some.inj (h1.symm.trans h2)) hne
        | some p => exact swap_siblings hl hx hy hne hp (hsib ▸ hp)
      · exact swap_distant hl hx hy hne hxy hyx hsib

end General

end LinkHeap

end Pptk.Timer
