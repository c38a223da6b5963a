import Pptk.Lib.SearchTree
import Pptk.Rbtree.Correct

/-!
# Red-black trees with a comparison function

`rb_tree_insert` finds the place of a new node with the comparison function of the
tree; `rb_tree_delete` does not compare. Here are the specification of the search
and what holds after every sequence of insertions and deletions.

Main results: `rbSearchTree` and `rb_tree_correct`.
-/

namespace Pptk.Rbtree

open Pptk.Lib CTree TPath

variable {ι : Type*} [DecidableEq ι]

namespace Rep

variable {t : RbTreeNocmp ι} {k : ι}

theorem hang {f : Frame ι} {up : TPath ι} (h : Rep t (fill (f :: up) .leaf))
    (hk : k ∉ (fill (f :: up) .leaf).keys) (hnode : ∃ p, t.heap k = ⟨false, none, none, p⟩)
    {t' : RbTreeNocmp ι}
    (ht' : t' = (f.side.pick (t.setLeft f.key (some k))
      (t.setRight f.key (some k))).setParent k (some f.key)) :
    Rep t' (fill (f :: up) (.node false .leaf k .leaf)) := by
  subst ht'
  obtain ⟨p, hp⟩ := hnode
  have hne : k ≠ f.key := fun he => hk (by simp [TPath.keys, he])
  refine ⟨?_, ?_, ?_⟩
  · have hroot := h.root
    cases hs : f.side <;> exact hroot.trans (root?_fill_congr up (by simp))
  · refine (shape_attach h.shape h.nodup hk).congr fun y _ => ?_
    by_cases hyk : y = k
    · subst hyk
      rw [attach, if_pos rfl]
      cases hs : f.side <;> ext1 <;>
        simp [Side.pick, RbTreeNocmp.setLeft, RbTreeNocmp.setRight, RbTreeNocmp.setParent, hne, hp]
    · rw [attach, if_neg hyk]
      by_cases hyf : y = f.key
      · subst hyf
        rw [if_pos rfl]
        cases hs : f.side <;>
          simp [Side.pick, PNode.setChild, RbTreeNocmp.setLeft, RbTreeNocmp.setRight,
            RbTreeNocmp.setParent, hyk]
      · rw [if_neg hyf]
        cases hs : f.side <;>
          simp [Side.pick, RbTreeNocmp.setLeft, RbTreeNocmp.setRight, RbTreeNocmp.setParent, hyk,
            hyf]
  · have hnd := h.nodup
    simp only [keys_fill, CTree.keys, add_zero] at hnd hk ⊢
    rw [Multiset.add_cons, add_zero, Multiset.nodup_cons]
    exact ⟨hk, hnd⟩

/-- The loop hangs the new node in at the place of the search. -/
theorem insertLoop (cmp : ι → ι → ℤ) {T : CTree ι} {P : TPath ι} {x : ι} {fuel m : ℕ}
    (h : Rep t (P.fill T)) (hx : T.root? = some x) (hk : k ∉ (P.fill T).keys)
    (hnode : ∃ p, t.heap k = ⟨false, none, none, p⟩) (hfuel : T.keys.card + m ≤ fuel) :
    ∃ t' fuel', m < fuel' ∧
      RbTreeNocmp.insertLoop (fun a b => some (cmp a b)) k fuel t x = t'.insertRepair fuel' k ∧
      Rep t' ((T.gap (fun y => cmp k y < 0) P).fill (.node false .leaf k .leaf)) := by
  induction T generalizing P x fuel with
  | leaf => simp [root?] at hx
  | node b l y r ihl ihr =>
    obtain rfl : y = x := by simpa [root?] using hx
    rw [CTree.keys, Multiset.card_cons, Multiset.card_add] at hfuel
    obtain ⟨fuel, rfl⟩ : ∃ n, fuel = n + 1 := ⟨fuel - 1, by omega⟩
    have hheap : t.heap y = ⟨b, l.root?, r.root?, P.parent?⟩ := heap_eq (d := .left) h
    simp only [RbTreeNocmp.insertLoop, hheap, CTree.gap, decide_eq_true_eq]
    split_ifs with hlt
    · cases l with
      | leaf => exact ⟨_, fuel + 1, by omega, rfl, hang (f := ⟨.left, b, y, r⟩) h hk hnode rfl⟩
      | node b' l' y' r' =>
        exact ihl (P := ⟨.left, b, y, r⟩ :: P) h rfl hk (by omega)
    · cases r with
      | leaf => exact ⟨_, fuel + 1, by omega, rfl, hang (f := ⟨.right, b, y, l⟩) h hk hnode rfl⟩
      | node b' l' y' r' =>
        exact ihr (P := ⟨.right, b, y, l⟩ :: P) h rfl hk (by omega)

/-- Inserting gives a red-black tree with the new node at its place (`CTree.place`). -/
theorem insert (cmp : ι → ι → ℤ) {T : CTree ι} {fuel : ℕ} (h : Rep t T) (hrb : IsRb T)
    (hk : k ∉ T.keys) (hfuel : 2 * T.keys.card < fuel) :
    ∃ t' T', t.insert (fun a b => some (cmp a b)) fuel k = some t' ∧ Rep t' T' ∧ IsRb T' ∧
      T'.toList = (T.place cmp k).before ++ k :: (T.place cmp k).after := by
  cases hT : T.root? with
  | none =>
    obtain rfl := root?_eq_none.mp hT
    obtain ⟨t', ht', h'⟩ := insert_empty (fun a b => some (cmp a b)) (k := k) (h.root.trans hT)
      (show 0 < fuel by omega)
    exact ⟨t', _, ht', h', ⟨rfl, 1, 0, rfl, rfl, rfl⟩, rfl⟩
  | some x =>
    obtain ⟨t0, ht0⟩ : ∃ t0, t0 = ((t.setIsBlack k false).setLeft k none).setRight k none :=
      ⟨_, rfl⟩
    have hne : ∀ y ∈ T.keys, y ≠ k := fun y hy he => hk (he ▸ hy)
    have h0 : Rep t0 (fill [] T) := h.congr (by rw [ht0]; rfl) fun y hy => by
      simp [ht0, RbTreeNocmp.setIsBlack, RbTreeNocmp.setLeft, RbTreeNocmp.setRight, paint, hne y hy]
    have hnode : ∃ p, t0.heap k = ⟨false, none, none, p⟩ := by
      refine ⟨(t.heap k).parent, ?_⟩
      simp [ht0, RbTreeNocmp.setIsBlack, RbTreeNocmp.setLeft, RbTreeNocmp.setRight, paint]
    obtain ⟨t1, fuel', hfuel', hloop, h1⟩ := h0.insertLoop cmp hT hk hnode
      (show T.keys.card + T.keys.card ≤ fuel by omega)
    have hleaf := T.fill_place cmp k
    have hcard : (T.place cmp k).keys.card < fuel' := by
      rw [← hleaf, keys_fill, CTree.keys, add_zero] at hfuel'
      exact hfuel'
    have hrb1 : IsRb ((T.place cmp k).fill .leaf) := by rwa [hleaf]
    obtain ⟨t', T', ht', h', hrb', hlist⟩ := h1.insertRepair_isRb hrb1 hcard
    refine ⟨t', T', ?_, h', hrb', hlist⟩
    rw [RbTreeNocmp.insert, ← ht0]
    simp only [h0.root, fill_nil, hT]
    rw [hloop, ht']

end Rep

/-- The red-black tree as a search tree. -/
def rbSearchTree (ι : Type*) [DecidableEq ι] : SearchTree ι where
  Tree := RbTreeNocmp ι
  init t := { t with root := none }
  insert cmp fuel t k := t.insert (fun a b => some (cmp a b)) fuel k
  delete fuel t k := t.delete fuel k
  leftmost fuel t := t.leftmost fuel
  Holds t xs := ∃ T, Rep t T ∧ IsRb T ∧ T.toList = xs
  nodup := by
    rintro t xs ⟨T, h, -, rfl⟩
    rw [← Multiset.coe_nodup, T.coe_toList]
    exact h.nodup
  holds_init t := ⟨.leaf, ⟨rfl, trivial, by simp [CTree.keys]⟩, ⟨rfl, 0, rfl⟩, rfl⟩
  holds_insert := by
    rintro cmp t xs k fuel hcmp ⟨T, h, hrb, rfl⟩ hsorted hk hfuel
    rw [← Multiset.coe_card, T.coe_toList] at hfuel
    obtain ⟨t', T', ht', h', hrb', hlist⟩ :=
      h.insert cmp hrb (k := k) (by rwa [← T.mem_toList]) hfuel
    obtain ⟨hsorted', hperm⟩ := sortedBy_place hcmp hsorted k
    exact ⟨t', T'.toList, ht', ⟨T', h', hrb', rfl⟩, hlist ▸ hsorted', hlist ▸ hperm⟩
  holds_delete := by
    rintro t xs k fuel ⟨T, h, hrb, rfl⟩ hk hfuel
    rw [← Multiset.coe_card, T.coe_toList] at hfuel
    obtain ⟨t', T', ht', h', hrb', hlist⟩ := h.delete hrb (T.mem_toList.mp hk) hfuel
    exact ⟨t', ht', T', h', hrb', hlist⟩
  holds_leftmost := by
    rintro t xs fuel ⟨T, h, -, rfl⟩ hfuel
    rw [← Multiset.coe_card, T.coe_toList] at hfuel
    exact h.leftmost hfuel

/-- An operation with the comparison function `cmp`: `rb_tree_insert` or `rb_tree_delete`. -/
def RbTreeNocmp.apply (cmp : ι → ι → ℤ) (fuel : ℕ) (t : RbTreeNocmp ι) :
    TreeOp ι → Option (RbTreeNocmp ι)
  | .insert k => t.insert (fun a b => some (cmp a b)) fuel k
  | .delete k => t.delete fuel k

/-- The nodes `live`, inserted in this order, are linked as a red-black tree. -/
structure RbInv (cmp : ι → ι → ℤ) (live : List ι) (t : RbTreeNocmp ι) (T : CTree ι) : Prop where
  rep : Rep t T
  balanced : IsRb T
  order : StablySorted cmp live T.toList

variable {cmp : ι → ι → ℤ} {live : List ι} {t : RbTreeNocmp ι}

omit [DecidableEq ι] in
theorem RbInv.card_keys {T : CTree ι} (h : RbInv cmp live t T) : T.keys.card = live.length := by
  rw [← T.coe_toList, Multiset.coe_card, h.order.perm.length_eq]

omit [DecidableEq ι] in
theorem RbInv.mem_keys {T : CTree ι} (h : RbInv cmp live t T) {k : ι} : k ∈ T.keys ↔ k ∈ live := by
  rw [← T.mem_toList, h.order.perm.mem_iff]

theorem RbInv.apply (hcmp : TotalPreorderCmp cmp) {op : TreeOp ι} {fuel : ℕ} (hnd : live.Nodup)
    (hfuel : 2 * live.length < fuel) (hop : op.Allowed live) (h : ∃ T, RbInv cmp live t T) :
    ∃ t', t.apply cmp fuel op = some t' ∧ ∃ T', RbInv cmp (op.live live) t' T' := by
  obtain ⟨T, h⟩ := h
  have hcard := h.card_keys
  cases op with
  | insert k =>
    obtain ⟨t', T', ht', hrep, hrb, hlist⟩ := h.rep.insert cmp h.balanced (k := k)
      (by rw [h.mem_keys]; exact hop) (show 2 * T.keys.card < fuel by omega)
    exact ⟨t', ht', T', hrep, hrb, hlist ▸ h.order.insert_place hcmp k⟩
  | delete k =>
    obtain ⟨t', T', ht', hrep, hrb, hlist⟩ := h.rep.delete h.balanced (k := k)
      (by rw [h.mem_keys]; exact hop) (show T.keys.card ≤ fuel by omega)
    exact ⟨t', ht', T', hrep, hrb, hlist ▸ h.order.erase hnd k⟩

/-- For every comparison function that is a total preorder and every sequence of insertions of new
nodes and deletions of nodes of the tree, over memory with arbitrary contents: no function aborts or
follows a null pointer, and the loops end (they need at most twice as many rounds as there are
operations, and one). Parent and child links agree with a tree whose root is black, in which no red
node has a red child and all paths to a missing child have the same number of black nodes. Its
in-order sequence is sorted and has exactly the nodes that were inserted and not deleted, equal ones
in the order of their insertion. -/
theorem rb_tree_correct {cmp : ι → ι → ℤ} (hcmp : TotalPreorderCmp cmp) {ops : List (TreeOp ι)}
    (hops : TreeOp.AllAllowed [] ops) (heap : Heap ι) {fuel : ℕ} (hfuel : 2 * ops.length < fuel) :
    ∃ t T, ops.foldlM (fun t op => t.apply cmp fuel op) (⟨none, heap⟩ : RbTreeNocmp ι) = some t ∧
      Rep t T ∧ IsRb T ∧ StablySorted cmp (ops.foldl TreeOp.live []) T.toList := by
  have hinit : ∃ T, RbInv cmp [] (⟨none, heap⟩ : RbTreeNocmp ι) T :=
    ⟨.leaf, ⟨rfl, trivial, by simp [CTree.keys]⟩, ⟨rfl, 0, rfl⟩, .nil⟩
  obtain ⟨t, hrun, T, h⟩ := TreeOp.run_inv (n := ops.length)
    (P := fun live t => ∃ T, RbInv cmp live t T)
    (fun hnd hlen hop h => RbInv.apply hcmp hnd ((Nat.mul_le_mul_left 2 hlen.le).trans_lt hfuel) hop
      h)
    List.nodup_nil hops (by simp) hinit
  exact ⟨t, T, hrun, h.rep, h.balanced, h.order⟩

/-- Two nodes with equal keys, and one that is deleted again. -/
theorem rb_tree_correct_half : let cmp : ℕ → ℕ → ℤ := fun a b => (a / 2 : ℕ) - (b / 2 : ℕ)
    let ops : List (TreeOp ℕ) := [.insert 3, .insert 2, .insert 0, .delete 0]
    TotalPreorderCmp cmp ∧ TreeOp.AllAllowed [] ops ∧
      ∃ t T, ops.foldlM (fun t op => t.apply cmp 9 op)
          (⟨none, fun _ => ⟨false, none, none, none⟩⟩ : RbTreeNocmp ℕ) = some t ∧
        Rep t T ∧ IsRb T ∧ StablySorted cmp [3, 2] T.toList := by
  intro cmp ops
  have hcmp : TotalPreorderCmp cmp :=
    ⟨fun a b => by simp only [cmp]; omega, fun {a b c} hab hbc => by simp only [cmp] at *; omega⟩
  have hops : TreeOp.AllAllowed [] ops := by
    simp [ops, TreeOp.AllAllowed, TreeOp.Allowed, TreeOp.live]
  exact ⟨hcmp, hops, rb_tree_correct hcmp hops _ (by decide)⟩

end Pptk.Rbtree
