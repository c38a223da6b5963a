import Mathlib.Data.List.Nodup
import Mathlib.Data.List.Perm.Basic
import Mathlib.Tactic.Ring
import Pptk.Timer.LinkHeapSwap

/-!
# The linked heap is a complete tree in heap order

The nodes of the heap in breadth-first order form a list, in which the children of the node number
`i` have the numbers `2i + 1` and `2i + 2` (`Rep`). Swapping two nodes renames the list, adding a
node appends to it, and cutting off the last node shortens it.

Main result: `linkheap_correct`.
-/

namespace Pptk.Timer

open Function List

namespace LinkHeap

/-- The nodes of the heap in breadth-first order are those of `arr`. -/
structure Rep (h : LinkHeap) (arr : List ℕ) : Prop where
  nodup : arr.Nodup
  size : h.size = arr.length
  root : h.root = arr[0]?
  left : ∀ i k, arr[i]? = some k → h.left k = arr[2 * i + 1]?
  right : ∀ i k, arr[i]? = some k → h.right k = arr[2 * i + 2]?
  parent : ∀ i k, arr[i]? = some k → h.parent k = if i = 0 then none else arr[(i - 1) / 2]?

/-- No node expires before its parent. -/
def Ordered (h : LinkHeap) (arr : List ℕ) : Prop :=
  ∀ c p, c ∈ arr → h.parent c = some p → h.time64 p ≤ h.time64 c

section Rep

variable {h h' : LinkHeap} {arr : List ℕ}

theorem Rep.inj (hr : h.Rep arr) {i j k : ℕ} (hi : arr[i]? = some k) (hj : arr[j]? = some k) :
    i = j := by
  have hlt := (List.getElem?_eq_some_iff.mp hi).1
  exact (List.getElem?_inj hlt hr.nodup).mp (hi.trans hj.symm)

theorem Rep.linkedOn (hr : h.Rep arr) : h.LinkedOn (· ∈ arr) where
  left k c hk hc := by
    obtain ⟨i, hi⟩ := mem_iff_getElem?.mp hk
    rw [hr.left i k hi] at hc
    refine ⟨mem_of_getElem? hc, ?_⟩
    rw [hr.parent _ c hc, if_neg (by omega), show (2 * i + 1 - 1) / 2 = i by omega, hi]
  right k c hk hc := by
    obtain ⟨i, hi⟩ := mem_iff_getElem?.mp hk
    rw [hr.right i k hi] at hc
    refine ⟨mem_of_getElem? hc, ?_⟩
    rw [hr.parent _ c hc, if_neg (by omega), show (2 * i + 2 - 1) / 2 = i by omega, hi]
  parent k p hk hp := by
    obtain ⟨i, hi⟩ := mem_iff_getElem?.mp hk
    rw [hr.parent i k hi] at hp
    split_ifs at hp with h0
    refine ⟨mem_of_getElem? hp, ?_⟩
    rw [hr.left _ p hp, hr.right _ p hp]
    rcases Nat.mod_two_eq_zero_or_one i with heven | hodd
    · right
      rw [show 2 * ((i - 1) / 2) + 2 = i by omega, hi]
    · left
      rw [show 2 * ((i - 1) / 2) + 1 = i by omega, hi]
  ne k c hk h1 h2 := by
    obtain ⟨i, hi⟩ := mem_iff_getElem?.mp hk
    rw [hr.left i k hi] at h1
    rw [hr.right i k hi] at h2
    have := hr.inj h1 h2
    omega
  full k hk h1 := by
    obtain ⟨i, hi⟩ := mem_iff_getElem?.mp hk
    rw [hr.left i k hi, getElem?_eq_none_iff] at h1
    rw [hr.right i k hi, getElem?_eq_none_iff]
    omega
  root k hk := by
    obtain ⟨i, hi⟩ := List.mem_iff_getElem?.mp hk
    have hlt := (List.getElem?_eq_some_iff.mp hi).1
    rw [hr.parent i k hi, hr.root]
    constructor
    · intro h0
      split_ifs at h0 with hi0
      · rw [← hi, hi0]
      · rw [getElem?_eq_none_iff] at h0
        omega
    · intro h0
      rw [if_pos (hr.inj hi h0)]
  root_mem k hk := by
    rw [hr.root] at hk
    exact mem_of_getElem? hk
  irrefl k hk hp := by
    obtain ⟨i, hi⟩ := mem_iff_getElem?.mp hk
    rw [hr.parent i k hi] at hp
    split_ifs at hp
    have := hr.inj hi hp
    omega
  asymm k p hk hp hp' := by
    obtain ⟨i, hi⟩ := mem_iff_getElem?.mp hk
    rw [hr.parent i k hi] at hp
    split_ifs at hp
    rw [hr.parent _ p hp] at hp'
    split_ifs at hp'
    have := hr.inj hi hp'
    omega

theorem Rep.swapped {x y : ℕ} (hr : h.Rep arr) (hx : x ∈ arr) (hy : y ∈ arr)
    (hs : Swapped x y (· ∈ arr) h h') : h'.Rep (arr.map (Equiv.swap x y)) := by
  have hmem : ∀ k ∈ arr, Equiv.swap x y k ∈ arr := by
    intro k hk
    rw [Equiv.swap_apply_def]
    split_ifs <;> assumption
  have hat : ∀ i k : ℕ, (arr.map (Equiv.swap x y))[i]? = some k →
      k ∈ arr ∧ arr[i]? = some (Equiv.swap x y k) := by
    intro i k hk
    rw [getElem?_map, Option.map_eq_some_iff] at hk
    obtain ⟨j, hj, rfl⟩ := hk
    rw [Equiv.swap_apply_self]
    exact ⟨hmem j (mem_of_getElem? hj), hj⟩
  refine ⟨hr.nodup.map (Equiv.injective _), by rw [hs.size, hr.size, length_map], ?_, ?_, ?_, ?_⟩
  · rw [hs.root, hr.root, getElem?_map]
  · intro i k hk
    obtain ⟨hk, hi⟩ := hat i k hk
    rw [hs.left k hk, hr.left i _ hi, getElem?_map]
  · intro i k hk
    obtain ⟨hk, hi⟩ := hat i k hk
    rw [hs.right k hk, hr.right i _ hi, getElem?_map]
  · intro i k hk
    obtain ⟨hk, hi⟩ := hat i k hk
    rw [hs.parent k hk, hr.parent i _ hi, getElem?_map]
    split_ifs <;> rfl

theorem mem_map_swap {x y : ℕ} (hx : x ∈ arr) (hy : y ∈ arr) (k : ℕ) :
    k ∈ arr.map (Equiv.swap x y) ↔ k ∈ arr := by
  simp only [mem_map]
  constructor
  · rintro ⟨j, hj, rfl⟩
    rw [Equiv.swap_apply_def]
    split_ifs <;> assumption
  · intro hk
    refine ⟨Equiv.swap x y k, ?_, Equiv.swap_apply_self ..⟩
    rw [Equiv.swap_apply_def]
    split_ifs <;> assumption

theorem map_swap_perm {x y : ℕ} (hnd : arr.Nodup) (hx : x ∈ arr) (hy : y ∈ arr) :
    (arr.map (Equiv.swap x y)).Perm arr :=
  (perm_ext_iff_of_nodup (hnd.map (Equiv.injective _)) hnd).mpr (mem_map_swap hx hy)

theorem Ordered.root_le (hr : h.Rep arr) (ho : h.Ordered arr) {r k : ℕ} (hroot : h.root = some r)
    (hk : k ∈ arr) : h.time64 r ≤ h.time64 k := by
  obtain ⟨i, hi⟩ := mem_iff_getElem?.mp hk
  rw [hr.root] at hroot
  induction i using Nat.strongRecOn generalizing k with
  | ind i ih =>
    rcases Nat.eq_zero_or_pos i with rfl | hpos
    · rw [Option.some.inj (hi.symm.trans hroot)]
    · have hlt := (List.getElem?_eq_some_iff.mp hi).1
      obtain ⟨p, hp⟩ : ∃ p, arr[(i - 1) / 2]? = some p :=
        ⟨_, List.getElem?_eq_getElem (show (i - 1) / 2 < arr.length by omega)⟩
      have hpar : h.parent k = some p := by rw [hr.parent i k hi, if_neg (by omega), hp]
      exact (ih _ (by omega) (mem_of_getElem? hp) hp).trans (ho k p hk hpar)

/-! ## The node number `n` -/

theorem foldlM_nthPath (hr : h.Rep arr) {fuel n : ℕ} (hfuel : n ≤ fuel)
    (hn : (n - 1) / 2 < arr.length ∨ n = 0) :
    (nthPath fuel n).foldlM h.nthStep h.root = some arr[n]? := by
  induction fuel generalizing n with
  | zero =>
    obtain rfl : n = 0 := by omega
    rw [nthPath, foldlM_nil, hr.root]
    rfl
  | succ fuel ih =>
    unfold nthPath
    split_ifs with h0
    · rw [h0, foldlM_nil, hr.root]
      rfl
    · obtain ⟨p, hp⟩ : ∃ p, arr[(n - 1) / 2]? = some p :=
        ⟨_, getElem?_eq_getElem (show (n - 1) / 2 < arr.length by omega)⟩
      rw [foldlM_append, ih (by omega) (by omega), hp]
      simp only [Option.bind_eq_bind, Option.bind_some, foldlM_cons, foldlM_nil, nthStep,
        Option.map_some, decide_eq_true_eq, Option.pure_def]
      split_ifs with hodd
      · rw [hr.right _ p hp, show 2 * ((n - 1) / 2) + 2 = n by omega]
      · rw [hr.left _ p hp, show 2 * ((n - 1) / 2) + 1 = n by omega]

/-- The bits of `n` lead to the node number `n`. -/
theorem nth_spec (hr : h.Rep arr) {n : ℕ} (hn : (n - 1) / 2 < arr.length ∨ n = 0) :
    h.nth n = some arr[n]? := foldlM_nthPath hr le_rfl hn

end Rep

/-! ## Sifting -/

/-- Heap order, except that `x` may expire before its parent. -/
structure UpOrder (h : LinkHeap) (arr : List ℕ) (x : ℕ) : Prop where
  other : ∀ c p, c ∈ arr → c ≠ x → h.parent c = some p → h.time64 p ≤ h.time64 c
  grand : ∀ c p, c ∈ arr → h.parent c = some x → h.parent x = some p → h.time64 p ≤ h.time64 c

/-- Heap order, except that `x` may expire behind its children. -/
structure DownOrder (h : LinkHeap) (arr : List ℕ) (x : ℕ) : Prop where
  other : ∀ c p, c ∈ arr → p ≠ x → h.parent c = some p → h.time64 p ≤ h.time64 c
  grand : ∀ c p, c ∈ arr → h.parent c = some x → h.parent x = some p → h.time64 p ≤ h.time64 c

/-- Heap order, whatever the time of `x` is. -/
structure OrderAround (h : LinkHeap) (arr : List ℕ) (x : ℕ) : Prop where
  other : ∀ c p, c ∈ arr → c ≠ x → p ≠ x → h.parent c = some p → h.time64 p ≤ h.time64 c
  grand : ∀ c p, c ∈ arr → h.parent c = some x → h.parent x = some p → h.time64 p ≤ h.time64 c

/-- The result of an operation that keeps the nodes: a heap of the same nodes in heap order. -/
structure Sifted (h : LinkHeap) (arr : List ℕ) (h' : LinkHeap) (arr' : List ℕ) : Prop where
  rep : h'.Rep arr'
  perm : arr'.Perm arr
  ordered : h'.Ordered arr'
  frame : SameOutside (· ∈ arr) h h'
  time64 : h'.time64 = h.time64

section Sift

variable {h h' : LinkHeap} {arr : List ℕ} {x p : ℕ}

theorem Sifted.refl (hr : h.Rep arr) (ho : h.Ordered arr) : Sifted h arr h arr :=
  ⟨hr, .refl _, ho, fun _ _ => ⟨rfl, rfl, rfl⟩, rfl⟩

theorem Sifted.of_swapped {y z : ℕ} {h'' : LinkHeap} {arr'' : List ℕ} (hr : h.Rep arr)
    (hy : y ∈ arr) (hz : z ∈ arr) (hs : Swapped y z (· ∈ arr) h h')
    (h2 : Sifted h' (arr.map (Equiv.swap y z)) h'' arr'') : Sifted h arr h'' arr'' := by
  have hperm := map_swap_perm hr.nodup hy hz
  refine ⟨h2.rep, h2.perm.trans hperm, h2.ordered, fun k hk => ?_, h2.time64.trans hs.time64⟩
  obtain ⟨a1, a2, a3⟩ := hs.frame k hk
  obtain ⟨b1, b2, b3⟩ := h2.frame k (fun hmem => hk (hperm.mem_iff.mp hmem))
  exact ⟨b1.trans a1, b2.trans a2, b3.trans a3⟩

theorem Swapped.parent_eq {y z c q : ℕ} (hs : Swapped y z (· ∈ arr) h h') (hc : c ∈ arr)
    (hq : h'.parent c = some q) : h.parent (Equiv.swap y z c) = some (Equiv.swap y z q) := by
  rw [hs.parent c hc, Option.map_eq_some_iff] at hq
  obtain ⟨r, hr, rfl⟩ := hq
  rw [hr, Equiv.swap_apply_self]

theorem UpOrder.swapped (hl : h.LinkedOn (· ∈ arr)) (ho : h.UpOrder arr x) (hx : x ∈ arr)
    (hxp : h.parent x = some p) (hlt : h.time64 x < h.time64 p) (hs : Swapped p x (· ∈ arr) h h') :
    h'.UpOrder (arr.map (Equiv.swap p x)) x := by
  obtain ⟨hp, -⟩ := hl.parent x p hx hxp
  have hpx : p ≠ x := by
    rintro rfl
    exact hl.irrefl _ hx hxp
  have hmem := mem_map_swap hp hx
  have hpar := fun c q => hs.parent_eq (c := c) (q := q)
  obtain ⟨h1, h2⟩ := ho
  have hasymm := hl.asymm x p hx hxp
  have hirr := hl.irrefl p hp
  constructor
  · intro c q hc hcx hq
    rw [hmem] at hc
    have hq' := hpar c q hc hq
    rw [hs.time64]
    simp only [Equiv.swap_apply_def] at hq'
    grind
  · intro c q hc hcx hq
    rw [hmem] at hc
    have hc' := hpar c x hc hcx
    have hq' := hpar x q hx hq
    rw [hs.time64]
    simp only [Equiv.swap_apply_def] at hc' hq'
    grind

theorem DownOrder.swapped {c : ℕ} (hl : h.LinkedOn (· ∈ arr)) (ho : h.DownOrder arr x)
    (hx : x ∈ arr) (hc : c ∈ arr) (hcx : h.parent c = some x) (hlt : h.time64 c < h.time64 x)
    (hmin : ∀ d ∈ arr, h.parent d = some x → h.time64 c ≤ h.time64 d)
    (hs : Swapped x c (· ∈ arr) h h') : h'.DownOrder (arr.map (Equiv.swap x c)) x := by
  have hne : c ≠ x := by
    rintro rfl
    exact hl.irrefl _ hc hcx
  have hmem := mem_map_swap hx hc
  have hpar := fun d q => hs.parent_eq (c := d) (q := q)
  obtain ⟨h1, h2⟩ := ho
  have hasymm := hl.asymm c x hc hcx
  have hirr := hl.irrefl x hx
  constructor
  · intro d q hd hqx hq
    rw [hmem] at hd
    have hq' := hpar d q hd hq
    rw [hs.time64]
    simp only [Equiv.swap_apply_def] at hq'
    grind
  · intro d q hd hdx hq
    rw [hmem] at hd
    have hd' := hpar d x hd hdx
    have hq' := hpar x q hx hq
    rw [hs.time64]
    simp only [Equiv.swap_apply_def] at hd' hq'
    grind

theorem minChild_spec (hl : h.LinkedOn (· ∈ arr)) (hx : x ∈ arr) :
    (h.minChild x = none ∧ ∀ d ∈ arr, h.parent d ≠ some x) ∨
      ∃ c ∈ arr, h.minChild x = some c ∧ h.parent c = some x ∧
        ∀ d ∈ arr, h.parent d = some x → h.time64 c ≤ h.time64 d := by
  have hchild : ∀ d ∈ arr, h.parent d = some x → h.left x = some d ∨ h.right x = some d :=
    fun d hd hdx => (hl.parent d x hd hdx).2
  unfold minChild
  cases hleft : h.left x with
  | none =>
    have hright := hl.full x hx hleft
    refine .inl ⟨by cases h.right x <;> rfl, fun d hd hdx => ?_⟩
    simpa [hleft, hright] using hchild d hd hdx
  | some fc =>
    obtain ⟨hfc, hfcp⟩ := hl.left x fc hx hleft
    cases hright : h.right x with
    | none =>
      refine .inr ⟨fc, hfc, rfl, hfcp, fun d hd hdx => ?_⟩
      rcases hchild d hd hdx with h1 | h1
      · rw [Option.some.inj (hleft.symm.trans h1)]
      · rw [hright] at h1
        exact absurd h1 (by simp)
    | some sc =>
      obtain ⟨hsc, hscp⟩ := hl.right x sc hx hright
      have hcases : ∀ d ∈ arr, h.parent d = some x → d = fc ∨ d = sc := by
        intro d hd hdx
        rcases hchild d hd hdx with h1 | h1
        · exact .inl (Option.some.inj (h1.symm.trans hleft))
        · exact .inr (Option.some.inj (h1.symm.trans hright))
      right
      by_cases hlt : h.time64 fc < h.time64 sc
      · refine ⟨fc, hfc, if_pos hlt, hfcp, fun d hd hdx => ?_⟩
        rcases hcases d hd hdx with rfl | rfl <;> omega
      · refine ⟨sc, hsc, if_neg hlt, hscp, fun d hd hdx => ?_⟩
        rcases hcases d hd hdx with rfl | rfl <;> omega

/-- Heap order is restored above a node. -/
theorem siftup_spec {i fuel : ℕ} (hr : h.Rep arr) (hi : arr[i]? = some x) (ho : h.UpOrder arr x)
    (hfuel : i ≤ fuel) : ∃ h' arr', h.siftup x fuel = some h' ∧ Sifted h arr h' arr' := by
  have hx := mem_of_getElem? hi
  induction fuel generalizing h arr i with
  | zero =>
    -- at the root
    obtain rfl : i = 0 := by omega
    refine ⟨h, arr, rfl, .refl hr fun c p hc hcp => ho.other c p hc ?_ hcp⟩
    rintro rfl
    rw [hr.parent 0 c hi, if_pos rfl] at hcp
    exact absurd hcp (by simp)
  | succ fuel ih =>
    unfold siftup
    cases hp : h.parent x with
    | none =>
      refine ⟨h, arr, rfl, .refl hr fun c p hc hcp => ho.other c p hc ?_ hcp⟩
      rintro rfl
      rw [hp] at hcp
      exact absurd hcp (by simp)
    | some p =>
      simp only
      split_ifs with hlt
      · obtain ⟨h1, heq, hs⟩ := swapParentchild_spec hr.linkedOn hx hp
        obtain ⟨hpmem, -⟩ := hr.linkedOn.parent x p hx hp
        rw [hr.parent i x hi] at hp
        split_ifs at hp with hi0
        have hi' : (arr.map (Equiv.swap p x))[(i - 1) / 2]? = some x := by
          rw [getElem?_map, hp, Option.map_some, Equiv.swap_apply_left]
        have hpar : h.parent x = some p := by rw [hr.parent i x hi, if_neg hi0, hp]
        obtain ⟨h2, arr2, heq2, hs2⟩ := ih (hr.swapped hpmem hx hs) hi'
          (ho.swapped hr.linkedOn hx hpar hlt hs) (by omega) ((mem_map_swap hpmem hx x).mpr hx)
        exact ⟨h2, arr2, by rw [heq, Option.bind_some, heq2], .of_swapped hr hpmem hx hs hs2⟩
      · refine ⟨h, arr, rfl, .refl hr fun c q hc hcq => ?_⟩
        by_cases hcx : c = x
        · subst hcx
          obtain rfl := Option.some.inj (hp.symm.trans hcq)
          omega
        · exact ho.other c q hc hcx hcq

/-- Heap order is restored below a node. -/
theorem siftdown_spec {i fuel : ℕ} (hr : h.Rep arr) (hi : arr[i]? = some x) (ho : h.DownOrder arr x)
    (hfuel : arr.length ≤ i + fuel) :
    ∃ h' arr', h.siftdown x fuel = some h' ∧ Sifted h arr h' arr' := by
  have hx := List.mem_of_getElem? hi
  have hlt := (List.getElem?_eq_some_iff.mp hi).1
  induction fuel generalizing h arr i with
  | zero => omega
  | succ fuel ih =>
    unfold siftdown
    rcases minChild_spec hr.linkedOn hx with ⟨hnone, hno⟩ | ⟨c, hc, hsome, hcx, hmin⟩
    · rw [hnone]
      refine ⟨h, arr, rfl, .refl hr fun c p hcm hcp => ho.other c p hcm ?_ hcp⟩
      rintro rfl
      exact hno c hcm hcp
    · rw [hsome]
      simp only
      split_ifs with hct
      · obtain ⟨h1, heq, hs⟩ := swapParentchild_spec hr.linkedOn hc hcx
        obtain ⟨j, hj⟩ := List.mem_iff_getElem?.mp hc
        have hjlt := (List.getElem?_eq_some_iff.mp hj).1
        have hj' : (arr.map (Equiv.swap x c))[j]? = some x := by
          rw [List.getElem?_map, hj, Option.map_some, Equiv.swap_apply_right]
        have hij : i < j := by
          have hpar := hr.parent j c hj
          rw [hcx] at hpar
          split_ifs at hpar
          have := hr.inj hi hpar.symm
          omega
        obtain ⟨h2, arr2, heq2, hs2⟩ := ih (hr.swapped hx hc hs) hj'
          (ho.swapped hr.linkedOn hx hc hcx hct hmin hs) (by rw [length_map]; omega)
          ((mem_map_swap hx hc x).mpr hx) (by rw [length_map]; exact hjlt)
        exact ⟨h2, arr2, by rw [heq, Option.bind_some, heq2], .of_swapped hr hx hc hs hs2⟩
      · refine ⟨h, arr, rfl, .refl hr fun d q hd hdq => ?_⟩
        by_cases hqx : q = x
        · subst hqx
          have := hmin d hd hdq
          omega
        · exact ho.other d q hd hqx hdq

/-- Heap order is restored around a node. -/
theorem modify_spec (hr : h.Rep arr) (hx : x ∈ arr) (ho : h.OrderAround arr x) :
    ∃ h' arr', h.modify x = some h' ∧ Sifted h arr h' arr' := by
  obtain ⟨i, hi⟩ := List.mem_iff_getElem?.mp hx
  have hlt := (List.getElem?_eq_some_iff.mp hi).1
  have hsize := hr.size
  unfold modify
  cases hp : h.parent x with
  | none =>
    refine siftdown_spec hr hi ⟨fun c q hc hqx hcq => ?_, ho.grand⟩ (by omega)
    by_cases hcx : c = x
    · subst hcx
      rw [hp] at hcq
      exact absurd hcq (by simp)
    · exact ho.other c q hc hcx hqx hcq
  | some p =>
    simp only
    split_ifs with hxp
    · refine siftup_spec hr hi ⟨fun c q hc hcx hcq => ?_, ho.grand⟩ (by omega)
      by_cases hqx : q = x
      · subst hqx
        have := ho.grand c p hc hcq hp
        omega
      · exact ho.other c q hc hcx hqx hcq
    · refine siftdown_spec hr hi ⟨fun c q hc hqx hcq => ?_, ho.grand⟩ (by omega)
      by_cases hcx : c = x
      · subst hcx
        obtain rfl := Option.some.inj (hp.symm.trans hcq)
        omega
      · exact ho.other c q hc hcx hqx hcq

end Sift

/-! ## Adding and removing -/

section Ends

variable {h h' : LinkHeap} {arr : List ℕ} {x : ℕ}

theorem Rep.congr (hr : h.Rep arr) (hsize : h'.size = h.size) (hroot : h'.root = h.root)
    (hsame : ∀ k ∈ arr, h'.left k = h.left k ∧ h'.right k = h.right k ∧ h'.parent k = h.parent k) :
    h'.Rep arr where
  nodup := hr.nodup
  size := hsize.trans hr.size
  root := hroot.trans hr.root
  left i k hi := ((hsame k (mem_of_getElem? hi)).1).trans (hr.left i k hi)
  right i k hi := ((hsame k (mem_of_getElem? hi)).2.1).trans (hr.right i k hi)
  parent i k hi := ((hsame k (mem_of_getElem? hi)).2.2).trans (hr.parent i k hi)

theorem getElem?_snoc (arr : List ℕ) (x j : ℕ) :
    (arr ++ [x])[j]? = if j = arr.length then some x else arr[j]? := by
  split_ifs with hj
  · rw [hj, getElem?_concat_length]
  · rcases Nat.lt_or_gt_of_ne hj with hlt | hgt
    · rw [getElem?_append_left hlt]
    · rw [getElem?_eq_none (by simp; omega), getElem?_eq_none (by omega)]

theorem Rep.append {i p : ℕ} (hr : h.Rep arr) (hx : x ∉ arr) (hi : arr[i]? = some p)
    (hlen : arr.length = 2 * i + 1 ∨ arr.length = 2 * i + 2) :
    LinkHeap.Rep
      { h with
        left := update (if arr.length = 2 * i + 1 then update h.left p (some x)
          else h.left) x none
        right := update (if arr.length = 2 * i + 1 then h.right
          else update h.right p (some x)) x none
        parent := update h.parent x (some p)
        size := h.size + 1 } (arr ++ [x]) := by
  have hcases : ∀ j k, (arr ++ [x])[j]? = some k → (j = arr.length ∧ k = x) ∨
      (k ≠ x ∧ arr[j]? = some k ∧ j < arr.length) := by
    intro j k hk
    rw [getElem?_snoc] at hk
    split_ifs at hk with hj
    · exact .inl ⟨hj, (Option.some.inj hk).symm⟩
    · refine .inr ⟨?_, hk, (List.getElem?_eq_some_iff.mp hk).1⟩
      rintro rfl
      exact hx (List.mem_of_getElem? hk)
  have hp : ∀ j k, arr[j]? = some k → (k = p ↔ j = i) := by
    intro j k hj
    constructor
    · rintro rfl
      exact hr.inj hj hi
    · rintro rfl
      exact Option.some.inj (hj.symm.trans hi)
  have hilt := (List.getElem?_eq_some_iff.mp hi).1
  refine ⟨?_, by simp [hr.size], ?_, fun j k hk => ?_, fun j k hk => ?_, fun j k hk => ?_⟩
  · exact List.nodup_append.mpr ⟨hr.nodup, by simp,
      by rintro a ha b hb rfl; simp at hb; exact hx (hb ▸ ha)⟩
  · rw [getElem?_snoc, if_neg (show ¬0 = arr.length by omega)]
    exact hr.root
  · simp only [getElem?_snoc]
    rcases hcases j k hk with ⟨rfl, rfl⟩ | ⟨hkx, hj, hjlt⟩
    · rw [update_self, if_neg (by omega), getElem?_eq_none (by omega)]
    · rw [update_of_ne hkx]
      by_cases hji : j = i
      · obtain rfl := (hp j k hj).mpr hji
        subst hji
        split_ifs with h1 h2 h2
        · rw [update_self]
        · omega
        · omega
        · exact hr.left j k hj
      · rw [if_neg (show ¬2 * j + 1 = arr.length by omega), ← hr.left j k hj]
        split_ifs
        · rw [update_of_ne (fun h => hji ((hp j k hj).mp h))]
        · rfl
  · simp only [getElem?_snoc]
    rcases hcases j k hk with ⟨rfl, rfl⟩ | ⟨hkx, hj, hjlt⟩
    · rw [update_self, if_neg (by omega), getElem?_eq_none (by omega)]
    · rw [update_of_ne hkx]
      by_cases hji : j = i
      · obtain rfl := (hp j k hj).mpr hji
        subst hji
        split_ifs with h1 h2 h2
        · omega
        · exact hr.right j k hj
        · rw [update_self]
        · omega
      · rw [if_neg (show ¬2 * j + 2 = arr.length by omega), ← hr.right j k hj]
        split_ifs
        · rfl
        · rw [update_of_ne (fun h => hji ((hp j k hj).mp h))]
  · simp only [getElem?_snoc]
    rcases hcases j k hk with ⟨rfl, rfl⟩ | ⟨hkx, hj, hjlt⟩
    · rw [update_self, if_neg (by omega), if_neg (by omega),
        show (arr.length - 1) / 2 = i by omega, hi]
    · rw [update_of_ne hkx, hr.parent j k hj]
      split_ifs
      · rfl
      · omega
      · rfl

/-- The heap after an operation: its nodes, in heap order, and the links of others unchanged. -/
structure Becomes (h : LinkHeap) (S P : ℕ → Prop) (h' : LinkHeap) (arr' : List ℕ) : Prop where
  rep : h'.Rep arr'
  ordered : h'.Ordered arr'
  mem : ∀ k, k ∈ arr' ↔ P k
  frame : SameOutside S h h'
  time64 : h'.time64 = h.time64

/-- A timer is added to a heap. -/
theorem add_spec (hr : h.Rep arr) (ho : h.Ordered arr) (hx : x ∉ arr) :
    ∃ h' arr', h.add x = some h' ∧
      Becomes h (fun k => k ∈ arr ∨ k = x) (fun k => k ∈ arr ∨ k = x) h' arr' := by
  have hnone : ∀ k, k ≠ x → update h.left x none k = h.left k ∧
      update h.right x none k = h.right k := fun k hk =>
    ⟨update_of_ne hk .., update_of_ne hk ..⟩
  unfold add
  simp only
  cases harr : arr with
  | nil =>
    have hroot : h.root = none := by rw [hr.root, harr]; rfl
    rw [if_pos hroot]
    refine ⟨_, [x], rfl, ⟨by simp, by simp [hr.size, harr], rfl, ?_, ?_, ?_⟩, ?_, by simp, ?_, rfl⟩
    · intro i k hk
      obtain ⟨hi, rfl⟩ := List.getElem?_eq_some_iff.mp hk
      simp
    · intro i k hk
      obtain ⟨hi, rfl⟩ := List.getElem?_eq_some_iff.mp hk
      simp
    · intro i k hk
      obtain ⟨hi, rfl⟩ := List.getElem?_eq_some_iff.mp hk
      simp at hi
      simp [hi]
    · intro c q hc hcq
      rw [mem_singleton.mp hc] at hcq
      exact absurd hcq (by simp)
    · intro k hk
      have hkx : k ≠ x := fun h => hk (.inr h)
      exact ⟨(hnone k hkx).1, (hnone k hkx).2, update_of_ne hkx ..⟩
  | cons r rest =>
    rw [← harr]
    have hlen : 0 < arr.length := by rw [harr]; simp
    have hroot : h.root ≠ none := by rw [hr.root, harr]; simp
    rw [if_neg hroot]
    -- the links of the new timer do not matter for the search of its parent
    have hr0 : LinkHeap.Rep
        { h with
          left := update h.left x none
          right := update h.right x none } arr :=
      hr.congr rfl rfl fun k hk =>
        ⟨(hnone k (fun h => hx (h ▸ hk))).1, (hnone k (fun h => hx (h ▸ hk))).2, rfl⟩
    obtain ⟨p, hp⟩ : ∃ p, arr[(arr.length - 1) / 2]? = some p :=
      ⟨_, getElem?_eq_getElem (show (arr.length - 1) / 2 < arr.length by omega)⟩
    have hpmem := mem_of_getElem? hp
    have hpx : p ≠ x := fun h => hx (h ▸ hpmem)
    have hnth : LinkHeap.lastPlusOneParent
        { h with
          left := update h.left x none
          right := update h.right x none } = some (some p) := by
      unfold lastPlusOneParent
      rw [nth_spec hr0 (.inl (by simp only [hr.size]; omega)), ← hp]
      simp only [hr.size]
    rw [hnth]
    simp only [Option.bind_eq_bind, Option.bind_some]
    have hrep := hr.append hx hp (by omega)
    have hup : ∀ l r, LinkHeap.UpOrder
        { h with
          left := l, right := r, parent := update h.parent x (some p), size := h.size + 1 }
        (arr ++ [x]) x := by
      intro l r
      constructor
      · intro c q hc hcx hcq
        have hc' : c ∈ arr := by simpa [hcx] using hc
        simp only [update_of_ne hcx] at hcq
        exact ho c q hc' hcq
      · intro c q hc hcx hxq
        exfalso
        by_cases hcx' : c = x
        · subst hcx'
          simp only [update_self] at hcx
          exact hpx (Option.some.inj hcx)
        · have hc' : c ∈ arr := by simpa [hcx'] using hc
          simp only [update_of_ne hcx'] at hcx
          exact hx (hr.linkedOn.parent c x hc' hcx).1
    have hat : (arr ++ [x])[arr.length]? = some x := getElem?_concat_length ..
    have hleft : update h.left x none p = arr[2 * ((arr.length - 1) / 2) + 1]? := hr0.left _ p hp
    have hright : update h.right x none p = arr[2 * ((arr.length - 1) / 2) + 2]? := hr0.right _ p hp
    have hfin : ∀ l r (fuel : ℕ), arr.length ≤ fuel →
        LinkHeap.Rep
          { h with
            left := l, right := r, parent := update h.parent x (some p), size := h.size + 1 }
          (arr ++ [x]) →
        (∀ k, k ∉ arr → k ≠ x → l k = h.left k ∧ r k = h.right k) →
        ∃ h' arr', LinkHeap.siftup
            { h with
              left := l, right := r, parent := update h.parent x (some p), size := h.size + 1 }
            x fuel = some h' ∧
          Becomes h (fun k => k ∈ arr ∨ k = x) (fun k => k ∈ arr ∨ k = x) h' arr' := by
      intro l r fuel hfuel hrep hlr
      obtain ⟨h', arr', heq, hs⟩ := siftup_spec hrep hat (hup l r) hfuel
      refine ⟨h', arr', heq, hs.rep, hs.ordered, fun k => ?_, fun k hk => ?_, hs.time64⟩
      · rw [hs.perm.mem_iff]
        simp
      · obtain ⟨hk1, hk2⟩ := not_or.mp hk
        obtain ⟨f1, f2, f3⟩ := hs.frame k (by simpa using hk)
        obtain ⟨g1, g2⟩ := hlr k hk1 hk2
        exact ⟨f1.trans g1, f2.trans g2, f3.trans (update_of_ne hk2 ..)⟩
    by_cases hodd : arr.length = 2 * ((arr.length - 1) / 2) + 1
    · rw [if_pos (by rw [hleft, getElem?_eq_none (by omega)]),
        if_neg (by rw [hright, getElem?_eq_none (by omega)]; simp)]
      rw [if_pos hodd, if_pos hodd, update_comm hpx] at hrep
      refine hfin _ _ _ (by rw [hr.size]; omega) hrep fun k hk hkx => ?_
      have hkp : k ≠ p := fun h => hk (h ▸ hpmem)
      exact ⟨by rw [update_of_ne hkp, update_of_ne hkx], update_of_ne hkx ..⟩
    · rw [if_neg (by rw [hleft, getElem?_eq_getElem (by omega)]; simp),
        if_pos (by rw [hright, getElem?_eq_none (by omega)])]
      rw [if_neg hodd, if_neg hodd, update_comm hpx] at hrep
      refine hfin _ _ _ (by rw [hr.size]; omega) hrep fun k hk hkx => ?_
      have hkp : k ≠ p := fun h => hk (h ▸ hpmem)
      exact ⟨update_of_ne hkx .., by rw [update_of_ne hkp, update_of_ne hkx]⟩

theorem Rep.cut {l : List ℕ} {t : ℕ} (hr : h.Rep (l ++ [t])) (hl : l ≠ []) :
    ∃ p h', h.parent t = some p ∧ p ∈ l ∧ (h.left p = some t → h.right p = none) ∧
      h.cut t p = some h' ∧ h'.time64 = h.time64 ∧ h'.size = h.size ∧ h'.parent = h.parent ∧
      h'.root = h.root ∧ (∀ k ∉ l, h'.left k = h.left k ∧ h'.right k = h.right k) ∧
      ∀ par : ℕ → Option ℕ, (∀ k ∈ l, par k = h.parent k) →
        LinkHeap.Rep { h' with size := h'.size - 1, parent := par } l := by
  have hlen := length_pos_iff.mpr hl
  obtain ⟨p, hp⟩ : ∃ p, l[(l.length - 1) / 2]? = some p :=
    ⟨_, getElem?_eq_getElem (show (l.length - 1) / 2 < l.length by omega)⟩
  have hpmem := mem_of_getElem? hp
  have hold : ∀ j < l.length, (l ++ [t])[j]? = l[j]? := fun j hj => getElem?_append_left hj
  have hp' : (l ++ [t])[(l.length - 1) / 2]? = some p := (hold _ (by omega)).trans hp
  have hpar : h.parent t = some p := by
    rw [hr.parent l.length t (getElem?_concat_length ..), if_neg (by omega), hp']
  have hnodup := nodup_append.mp hr.nodup
  have htl : t ∉ l := fun h => hnodup.2.2 t h t (by simp) rfl
  have hleft := hr.left _ p hp'
  have hright := hr.right _ p hp'
  rw [getElem?_snoc] at hleft hright
  have hidx : ∀ j k, l[j]? = some k → (k = p ↔ j = (l.length - 1) / 2) := by
    intro j k hj
    have hjlt := (List.getElem?_eq_some_iff.mp hj).1
    constructor
    · rintro rfl
      exact hr.inj ((hold j hjlt).trans hj) hp'
    · rintro rfl
      exact Option.some.inj (hj.symm.trans hp)
  -- a heap with the links of all other nodes and without this one
  have hrep : ∀ lf rt par : ℕ → Option ℕ,
      (∀ j k, l[j]? = some k → lf k = if 2 * j + 1 = l.length then none else h.left k) →
      (∀ j k, l[j]? = some k → rt k = if 2 * j + 2 = l.length then none else h.right k) →
      (∀ k ∈ l, par k = h.parent k) →
      LinkHeap.Rep { h with left := lf, right := rt, size := h.size - 1, parent := par } l := by
    intro lf rt par hlf hrt hpar'
    refine ⟨hnodup.1, by simp [hr.size], ?_, fun j k hj => ?_, fun j k hj => ?_, fun j k hj => ?_⟩
    · simp only [hr.root]
      rw [hold 0 hlen]
    · have hjlt := (List.getElem?_eq_some_iff.mp hj).1
      simp only
      rw [hlf j k hj, hr.left j k ((hold j hjlt).trans hj), getElem?_snoc]
      split_ifs with h1
      · rw [getElem?_eq_none (by omega)]
      · rfl
    · have hjlt := (List.getElem?_eq_some_iff.mp hj).1
      simp only
      rw [hrt j k hj, hr.right j k ((hold j hjlt).trans hj), getElem?_snoc]
      split_ifs with h1
      · rw [getElem?_eq_none (by omega)]
      · rfl
    · have hjlt := (List.getElem?_eq_some_iff.mp hj).1
      simp only
      rw [hpar' k (List.mem_of_getElem? hj), hr.parent j k ((hold j hjlt).trans hj)]
      split_ifs with h0
      · rfl
      · rw [hold _ (by omega)]
  by_cases hodd : 2 * ((l.length - 1) / 2) + 1 = l.length
  · rw [if_pos hodd] at hleft
    rw [if_neg (by omega), getElem?_eq_none (by omega)] at hright
    refine ⟨p, { h with left := update h.left p none }, hpar, hpmem, fun _ => hright,
      by rw [LinkHeap.cut, if_pos hleft], rfl, rfl, rfl, rfl,
      fun k hk => ⟨update_of_ne (ne_of_mem_of_not_mem hpmem hk).symm .., rfl⟩,
      fun par hpar' => ?_⟩
    refine hrep _ _ par (fun j k hj => ?_) (fun j k hj => ?_) hpar'
    · simp only [update_apply, hidx j k hj]
      split_ifs <;> first | rfl | omega
    · rw [if_neg (by omega)]
  · rw [if_neg hodd, getElem?_eq_getElem (by omega)] at hleft
    rw [if_pos (by omega)] at hright
    have hne : h.left p ≠ some t := by
      rw [hleft]
      intro heq
      exact htl (Option.some.inj heq ▸ getElem_mem _)
    refine ⟨p, { h with right := update h.right p none }, hpar, hpmem,
      fun h => absurd h hne, by rw [LinkHeap.cut, if_neg hne, if_pos hright], rfl, rfl, rfl, rfl,
      fun k hk => ⟨rfl, update_of_ne (ne_of_mem_of_not_mem hpmem hk).symm ..⟩,
      fun par hpar' => ?_⟩
    refine hrep _ _ par (fun j k hj => ?_) (fun j k hj => ?_) hpar'
    · rw [if_neg (by omega)]
    · simp only [update_apply, hidx j k hj]
      split_ifs <;> first | rfl | omega

theorem Ordered.around (ho : h.Ordered arr) (hl : h.LinkedOn (· ∈ arr)) (x : ℕ) :
    h.OrderAround arr x where
  other c p hc _ _ hcp := ho c p hc hcp
  grand c p hc hcx hxp := by
    have hx := (hl.parent c x hc hcx).1
    exact (ho x p hx hxp).trans (ho c x hc hcx)

/-- A timer is removed from a heap. -/
theorem remove_spec (hr : h.Rep arr) (hx : x ∈ arr) (ho : h.OrderAround arr x) :
    ∃ h' arr', h.remove x = some h' ∧ Becomes h (· ∈ arr) (fun k => k ∈ arr ∧ k ≠ x) h' arr' := by
  obtain ⟨l, t, rfl⟩ := (eq_nil_or_concat' arr).resolve_left (ne_nil_of_mem hx)
  have hnodup := nodup_append.mp hr.nodup
  have htl : t ∉ l := fun h => hnodup.2.2 t h t (by simp) rfl
  have htmem : t ∈ l ++ [t] := by simp
  have hat : (l ++ [t])[l.length]? = some t := getElem?_concat_length ..
  have hlast : h.last = some (some t) := by
    unfold LinkHeap.last
    rw [hr.size, length_append, length_singleton, Nat.add_sub_cancel,
      nth_spec hr (by simp; omega), hat]
  have hleaf : ¬(h.left t ≠ none ∨ h.right t ≠ none) := by
    rw [hr.left _ t hat, hr.right _ t hat, getElem?_eq_none (by simp; omega),
      getElem?_eq_none (by simp; omega)]
    simp
  unfold LinkHeap.remove
  simp only [hlast, Option.bind_eq_bind, Option.bind_some, if_neg hleaf]
  by_cases hxt : x = t
  · -- the last timer
    subst hxt
    rw [if_pos rfl]
    rcases eq_or_ne l [] with rfl | hl
    · have hpar : h.parent x = none := by rw [hr.parent 0 x rfl, if_pos rfl]
      rw [hpar]
      refine ⟨_, [], rfl, ⟨nodup_nil, by simp [hr.size], rfl, ?_, ?_, ?_⟩, ?_, ?_, ?_, rfl⟩
      · simp
      · simp
      · simp
      · intro c p hc
        simp at hc
      · simp
      · exact fun k _ => ⟨rfl, rfl, rfl⟩
    · obtain ⟨p, h', hpar, hp, -, hcut, htime, hsize, hparent, hroot, hframe, hrep⟩ := hr.cut hl
      rw [hpar]
      simp only [hcut, Option.map_some]
      refine ⟨_, l, rfl, hrep h'.parent (fun k _ => by rw [hparent]), ?_, ?_, ?_, htime⟩
      · intro c q hc hcq
        simp only [hparent] at hcq
        simp only [htime]
        have hcx : c ≠ x := fun h => htl (h ▸ hc)
        have hrep' := hrep h'.parent (fun k _ => by rw [hparent])
        have hqx : q ≠ x := by
          rintro rfl
          have := (hrep'.linkedOn.parent c q hc (by simp only [hparent]; exact hcq)).1
          exact htl this
        exact ho.other c q (mem_append_left _ hc) hcx hqx hcq
      · intro k
        simp only [mem_append, mem_singleton]
        constructor
        · intro hk
          exact ⟨.inl hk, fun h => htl (h ▸ hk)⟩
        · rintro ⟨hk | hk, hne⟩
          · exact hk
          · exact absurd hk hne
      · intro k hk
        obtain ⟨h1, h2⟩ := hframe k (fun h => hk (mem_append_left _ h))
        exact ⟨h1, h2, by rw [hparent]⟩
  · rw [if_neg hxt]
    have hxl : x ∈ l := by simpa [hxt] using hx
    obtain ⟨h₁, hswap, hs⟩ := swap_spec hr.linkedOn hx htmem hxt
    have hr1 := hr.swapped hx htmem hs
    rw [map_append, map_singleton, Equiv.swap_apply_right] at hr1
    have hl : l.map (Equiv.swap x t) ≠ [] := by
      rw [ne_eq, map_eq_nil_iff]
      exact ne_nil_of_mem hxl
    obtain ⟨p, h₂, hpar, hp, hnoright, hcut, htime, hsize, hparent, hroot, hframe, hrep⟩ :=
      hr1.cut hl
    rw [hswap]
    simp only [Option.bind_some, hpar]
    rw [if_neg (fun h => h.2 (hnoright h.1)), hcut]
    simp only [Option.bind_some]
    -- the nodes that are left: `t` instead of `x`
    have hmem : ∀ k, k ∈ l.map (Equiv.swap x t) ↔ k ∈ l ++ [t] ∧ k ≠ x := by
      intro k
      have : k ∈ (l ++ [t]).map (Equiv.swap x t) ↔ k ∈ l ++ [t] := mem_map_swap hx htmem k
      rw [map_append, map_singleton, Equiv.swap_apply_right, mem_append, mem_singleton] at this
      have hxnot : x ∉ l.map (Equiv.swap x t) := fun h =>
        (nodup_append.mp hr1.nodup).2.2 x h x (by simp) rfl
      constructor
      · intro hk
        exact ⟨this.mp (.inl hk), fun h => hxnot (h ▸ hk)⟩
      · rintro ⟨hk, hne⟩
        exact (this.mpr hk).resolve_right hne
    have hxleaf : ¬(h₂.left x ≠ none ∨ h₂.right x ≠ none) := by
      obtain ⟨h1, h2⟩ := hframe x (fun h => ((hmem x).mp h).2 rfl)
      rw [not_or, not_not, not_not] at hleaf ⊢
      rw [h1, h2, hs.left x hx, hs.right x hx, Equiv.swap_apply_left, hleaf.1, hleaf.2]
      exact ⟨rfl, rfl⟩
    rw [if_neg hxleaf]
    have hr3 := hrep (update h₂.parent x none) (fun k hk => by
      rw [update_of_ne ((hmem k).mp hk).2, hparent])
    have ht3 : t ∈ l.map (Equiv.swap x t) := (hmem t).mpr ⟨htmem, fun h => hxt h.symm⟩
    have hback : ∀ c q, c ∈ l.map (Equiv.swap x t) → update h₂.parent x none c = some q →
        h.parent (Equiv.swap x t c) = some (Equiv.swap x t q) ∧ q ≠ x := by
      intro c q hc hcq
      have hq := (hr3.linkedOn.parent c q hc hcq).1
      rw [update_of_ne ((hmem c).mp hc).2, hparent] at hcq
      exact ⟨hs.parent_eq ((hmem c).mp hc).1 hcq, ((hmem q).mp hq).2⟩
    have ho3 : LinkHeap.OrderAround
        { h₂ with size := h₂.size - 1, parent := update h₂.parent x none }
        (l.map (Equiv.swap x t)) t := by
      constructor
      · intro c q hc hct hqt hcq
        obtain ⟨hcq', hqx⟩ := hback c q hc hcq
        obtain ⟨hc', hcx⟩ := (hmem c).mp hc
        rw [Equiv.swap_apply_of_ne_of_ne hcx hct, Equiv.swap_apply_of_ne_of_ne hqx hqt] at hcq'
        simp only [htime, hs.time64]
        exact ho.other c q hc' hcx hqx hcq'
      · intro c q hc hct htq
        obtain ⟨hct', -⟩ := hback c t hc hct
        obtain ⟨htq', hqx⟩ := hback t q ht3 htq
        obtain ⟨hc', hcx⟩ := (hmem c).mp hc
        have hct_ne : c ≠ t := by
          rintro rfl
          exact hr3.linkedOn.irrefl _ hc hct
        have hqt : q ≠ t := by
          rintro rfl
          exact hr3.linkedOn.irrefl _ ht3 htq
        rw [Equiv.swap_apply_of_ne_of_ne hcx hct_ne, Equiv.swap_apply_right] at hct'
        rw [Equiv.swap_apply_right, Equiv.swap_apply_of_ne_of_ne hqx hqt] at htq'
        simp only [htime, hs.time64]
        exact ho.grand c q hc' hct' htq'
    obtain ⟨h4, arr4, hmod, hsift⟩ := modify_spec hr3 ht3 ho3
    refine ⟨h4, arr4, hmod, hsift.rep, hsift.ordered, fun k => ?_, fun k hk => ?_, ?_⟩
    · rw [hsift.perm.mem_iff, hmem]
    · have hk' : k ∉ l.map (Equiv.swap x t) := fun h => hk ((hmem k).mp h).1
      have hkx : k ≠ x := fun h => hk (h ▸ hx)
      obtain ⟨a1, a2, a3⟩ := hsift.frame k hk'
      obtain ⟨b1, b2⟩ := hframe k hk'
      obtain ⟨c1, c2, c3⟩ := hs.frame k hk
      refine ⟨a1.trans (b1.trans c1), a2.trans (b2.trans c2), a3.trans ?_⟩
      simp only
      rw [update_of_ne hkx, hparent, c3]
    · rw [hsift.time64]
      simp only [htime, hs.time64]

theorem Rep.setTime (hr : h.Rep arr) (k t : ℕ) : (h.setTime k t).Rep arr :=
  hr.congr rfl rfl fun _ _ => ⟨rfl, rfl, rfl⟩

theorem Ordered.setTime_around (ho : h.Ordered arr) (hl : h.LinkedOn (· ∈ arr)) (x t : ℕ) :
    (h.setTime x t).OrderAround arr x where
  other c p hc hcx hpx hcp := by
    simp only [LinkHeap.setTime, update_of_ne hcx, update_of_ne hpx]
    exact ho c p hc hcp
  grand c p hc hcx hxp := by
    have hx := (hl.parent c x hc hcx).1
    have hne : c ≠ x := by
      rintro rfl
      exact hl.irrefl _ hc hcx
    have hpx : p ≠ x := by
      rintro rfl
      exact hl.irrefl _ hx hxp
    simp only [LinkHeap.setTime, update_of_ne hne, update_of_ne hpx]
    exact (ho x p hx hxp).trans (ho c x hc hcx)

theorem Ordered.setTime_of_not_mem (ho : h.Ordered arr) (hl : h.LinkedOn (· ∈ arr)) {x : ℕ}
    (hx : x ∉ arr) (t : ℕ) : (h.setTime x t).Ordered arr := by
  intro c p hc hcp
  have hp := (hl.parent c p hc hcp).1
  simp only [LinkHeap.setTime, update_of_ne (ne_of_mem_of_not_mem hc hx),
    update_of_ne (ne_of_mem_of_not_mem hp hx)]
  exact ho c p hc hcp

end Ends

end LinkHeap

open LinkHeap

/-! ## Runs -/

/-- The calls. A timer gets its time before it is added or modified. -/
inductive LinkOp
  | add (k t : ℕ)
  | remove (k : ℕ)
  | modify (k t : ℕ)

/-- The heap after a call. -/
def LinkOp.apply (h : LinkHeap) : LinkOp → Option LinkHeap
  | .add k t => (h.setTime k t).add k
  | .remove k => h.remove k
  | .modify k t => (h.setTime k t).modify k

/-- What is asked for: the pending timers, each with its time. -/
def LinkOp.pending (q : ℕ → Option ℕ) : LinkOp → ℕ → Option ℕ
  | .add k t => update q k (some t)
  | .remove k => update q k none
  | .modify k t => update q k (some t)

/-- A timer that is added is not pending, and one that is removed or modified is. -/
def LinkOp.Allowed (q : ℕ → Option ℕ) : LinkOp → Prop
  | .add k _ => q k = none
  | .remove k => q k ≠ none
  | .modify k _ => q k ≠ none

/-- The calls are allowed one after another. -/
def LinkOp.AllowedAll (q : ℕ → Option ℕ) : List LinkOp → Prop
  | [] => True
  | op :: ops => op.Allowed q ∧ AllowedAll (op.pending q) ops

/-- The heap holds the pending timers: it is a complete tree in heap order. -/
def Holds (h : LinkHeap) (q : ℕ → Option ℕ) (arr : List ℕ) : Prop :=
  h.Rep arr ∧ h.Ordered arr ∧ (∀ k, k ∈ arr ↔ q k ≠ none) ∧ ∀ k t, q k = some t → h.time64 k = t

theorem LinkOp.step {h : LinkHeap} {q : ℕ → Option ℕ} {arr : List ℕ} {op : LinkOp}
    (hh : Holds h q arr) (hop : op.Allowed q) :
    ∃ h' arr', op.apply h = some h' ∧ Holds h' (op.pending q) arr' := by
  obtain ⟨hr, ho, hmem, htime⟩ := hh
  have htime' : ∀ k t j u, update q k (some t) j = some u →
    (h.setTime k t).time64 j = u := by
    intro k t j u hj
    by_cases hjk : j = k
    · subst hjk
      rw [update_self, Option.some.injEq] at hj
      simp only [LinkHeap.setTime, update_self, hj]
    · rw [update_of_ne hjk] at hj
      simp only [LinkHeap.setTime, update_of_ne hjk, htime j u hj]
  cases op with
  | add k t =>
    have hk : k ∉ arr := by
      rw [hmem]
      exact not_not_intro hop
    obtain ⟨h', arr', hadd, hb⟩ :=
      add_spec (hr.setTime k t) (ho.setTime_of_not_mem hr.linkedOn hk t) hk
    refine ⟨h', arr', hadd, hb.rep, hb.ordered, fun j => ?_, fun j u hj => ?_⟩
    · rw [hb.mem, hmem]
      simp only [LinkOp.pending, update_apply]
      split_ifs with hjk <;> simp [hjk]
    · rw [hb.time64]
      exact htime' k t j u hj
  | remove k =>
    obtain ⟨h', arr', hrem, hb⟩ := remove_spec hr ((hmem k).mpr hop) (ho.around hr.linkedOn k)
    refine ⟨h', arr', hrem, hb.rep, hb.ordered, fun j => ?_, fun j u hj => ?_⟩
    · rw [hb.mem, hmem]
      simp only [LinkOp.pending, update_apply]
      split_ifs with hjk <;> simp [hjk]
    · rw [hb.time64]
      simp only [LinkOp.pending, update_apply] at hj
      split_ifs at hj
      exact htime j u hj
  | modify k t =>
    obtain ⟨h', arr', hmod, hs⟩ :=
      modify_spec (hr.setTime k t) ((hmem k).mpr hop) (ho.setTime_around hr.linkedOn k t)
    refine ⟨h', arr', hmod, hs.rep, hs.ordered, fun j => ?_, fun j u hj => ?_⟩
    · rw [hs.perm.mem_iff, hmem]
      simp only [LinkOp.pending, update_apply]
      split_ifs with hjk
      · subst hjk
        exact iff_of_true hop (Option.some_ne_none t)
      · rfl
    · rw [hs.time64]
      exact htime' k t j u hj

theorem LinkOp.run {h : LinkHeap} {q : ℕ → Option ℕ} {arr : List ℕ} {ops : List LinkOp}
    (hh : Holds h q arr) (hops : AllowedAll q ops) :
    ∃ h' arr', ops.foldlM LinkOp.apply h = some h' ∧
      Holds h' (ops.foldl LinkOp.pending q) arr' := by
  induction ops generalizing h q arr with
  | nil => exact ⟨h, arr, rfl, hh⟩
  | cons op ops ih =>
    obtain ⟨h1, arr1, happ, hh1⟩ := LinkOp.step hh hops.1
    obtain ⟨h', arr', hrun, hh'⟩ := ih hh1 hops.2
    refine ⟨h', arr', ?_, hh'⟩
    rw [foldlM_cons, happ]
    exact hrun

theorem Holds.init (h : LinkHeap) : Holds h.init (fun _ => none) [] := by
  refine ⟨⟨nodup_nil, rfl, rfl, ?_, ?_, ?_⟩, ?_, ?_, ?_⟩
  · simp
  · simp
  · simp
  · intro c p hc
    simp at hc
  · simp
  · simp

/-- Every sequence of calls succeeds, and leaves a complete tree (`Rep`) in heap order that holds
exactly the pending timers, with a timer of the least time as its root. -/
theorem linkheap_correct (h0 : LinkHeap) (ops : List LinkOp)
    (hops : LinkOp.AllowedAll (fun _ => none) ops) :
    ∃ h arr, ops.foldlM LinkOp.apply h0.init = some h ∧ h.Rep arr ∧ h.Ordered arr ∧
      (∀ k, k ∈ arr ↔ ops.foldl LinkOp.pending (fun _ => none) k ≠ none) ∧
      (∀ k t, ops.foldl LinkOp.pending (fun _ => none) k = some t → h.time64 k = t) ∧
      (h.nextExpiryTimer = none ↔ arr = []) ∧
      ∀ r, h.nextExpiryTimer = some r → r ∈ arr ∧ ∀ k ∈ arr, h.time64 r ≤ h.time64 k := by
  obtain ⟨h, arr, hrun, hr, ho, hmem, htime⟩ := LinkOp.run (Holds.init h0) hops
  refine ⟨h, arr, hrun, hr, ho, hmem, htime, ?_, fun r hroot => ⟨?_, fun k hk => ?_⟩⟩
  · rw [nextExpiryTimer, hr.root, getElem?_eq_none_iff, Nat.le_zero, length_eq_zero_iff]
  · exact hr.linkedOn.root_mem r hroot
  · exact ho.root_le hr hroot hk

theorem linkheap_correct_three :
    ∃ h arr, [LinkOp.add 1 30, .add 2 20, .add 3 40, .modify 1 10, .remove 2].foldlM LinkOp.apply
        (⟨fun _ => 0, fun _ => none, fun _ => none, fun _ => none, none, 0⟩ : LinkHeap) = some h ∧
      h.Rep arr ∧ h.nextExpiryTimer = some 1 := by
  obtain ⟨h, arr, hrun, hr, -⟩ := linkheap_correct
    ⟨fun _ => 0, fun _ => none, fun _ => none, fun _ => none, none, 0⟩
    [.add 1 30, .add 2 20, .add 3 40, .modify 1 10, .remove 2]
    (by simp [LinkOp.AllowedAll, LinkOp.Allowed, LinkOp.pending, update])
  refine ⟨h, arr, hrun, hr, ?_⟩
  have hroot : ([LinkOp.add 1 30, .add 2 20, .add 3 40, .modify 1 10, .remove 2].foldlM LinkOp.apply
      (⟨fun _ => 0, fun _ => none, fun _ => none, fun _ => none, none, 0⟩ : LinkHeap)).map
        LinkHeap.nextExpiryTimer = some (some 1) := by
    decide +kernel
  change _ = some h at hrun
  rw [LinkHeap.init] at hrun
  rw [hrun] at hroot
  exact Option.some.inj hroot

end Pptk.Timer
