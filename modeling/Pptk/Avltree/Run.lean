import Pptk.Avltree.Correct
import Pptk.Rbtree.Run

/-!
# AVL trees with a comparison function

What holds after every sequence of `avl_tree_insert` and `avl_tree_delete`.

Main result: `avl_tree_correct`.
-/

namespace Pptk.Avltree

open Pptk.Lib CTree Pptk.Rbtree Function TPath

variable {ι : Type*} [DecidableEq ι]

namespace AvlTree

variable {t : AvlTree ι} {k : ι}

variable {T : CTree ι} {fuel : ℕ}

/-- The loop hangs the new node in at the place of the search. -/
theorem insertLoop_spec (cmp : ι → ι → ℤ) {P : TPath ι} {x : ι} {m : ℕ} (h : Rep t.links (P.fill T))
    (hx : T.root? = some x) (hk : k ∉ (P.fill T).keys)
    (hnode : ∃ p, t.links.heap k = ⟨false, none, none, p⟩) (hfuel : T.keys.card + m ≤ fuel) :
    ∃ (t' : AvlTree ι) (fuel' : ℕ), m < fuel' ∧
      insertLoop cmp k fuel t x = t'.insertRepair fuel' k ∧
      Rep t'.links ((T.gap (fun y => cmp k y < 0) P).fill (.node false .leaf k .leaf)) ∧
      t'.bal = t.bal := by
  induction T generalizing P x fuel with
  | leaf => simp [root?] at hx
  | node b l y r ihl ihr =>
    obtain rfl : y = x := by simpa [root?] using hx
    rw [CTree.keys, Multiset.card_cons, Multiset.card_add] at hfuel
    obtain ⟨fuel, rfl⟩ : ∃ n, fuel = n + 1 := ⟨fuel - 1, by omega⟩
    have hheap : t.links.heap y = ⟨b, l.root?, r.root?, P.parent?⟩ := Rep.heap_eq (d := .left) h
    have hleft : (t.heap y).child .left = l.root? := by rw [← links_child, hheap]; rfl
    have hright : (t.heap y).child .right = r.root? := by rw [← links_child, hheap]; rfl
    simp only [insertLoop, CTree.gap, decide_eq_true_eq]
    split_ifs with hlt
    · rw [hleft]
      cases l with
      | leaf =>
        exact ⟨_, fuel + 1, by omega, rfl,
          Rep.hang (f := ⟨.left, b, y, r⟩) h hk hnode (by simp [Side.pick]), by simp⟩
      | node b' l' y' r' => exact ihl (P := ⟨.left, b, y, r⟩ :: P) h rfl hk (by omega)
    · rw [hright]
      cases r with
      | leaf =>
        exact ⟨_, fuel + 1, by omega, rfl,
          Rep.hang (f := ⟨.right, b, y, l⟩) h hk hnode (by simp [Side.pick]), by simp⟩
      | node b' l' y' r' => exact ihr (P := ⟨.right, b, y, l⟩ :: P) h rfl hk (by omega)

theorem insert_fields (t : AvlTree ι) (k : ι) :
    ∃ t0, t0 = ((t.setBalance k 0).setChild k none .left).setChild k none .right ∧
      t0.root = t.root ∧ (∀ y, y ≠ k → t0.links.heap y = t.links.heap y) ∧
      (∃ p, t0.links.heap k = ⟨false, none, none, p⟩) ∧ t0.bal = update t.bal k 0 := by
  refine ⟨_, rfl, rfl, fun y hy => ?_, ⟨(t.heap k).parent, ?_⟩, by simp⟩
  · simp [RbTreeNocmp.setLeft, RbTreeNocmp.setRight, hy]
  · ext1 <;> simp

/-- Inserting gives an AVL tree with the new node at its place (`CTree.place`). -/
theorem insert_spec (cmp : ι → ι → ℤ) (h : Rep t.links T) (hbal : T.Avl t.bal) (hk : k ∉ T.keys)
    (hfuel : 2 * T.keys.card < fuel) :
    ∃ t' T', t.insert cmp fuel k = some t' ∧ Rep t'.links T' ∧ T'.Avl t'.bal ∧
      T'.toList = (T.place cmp k).before ++ k :: (T.place cmp k).after := by
  obtain ⟨t0, ht0, hroot, hheap, hnode, hbal0⟩ := insert_fields t k
  have hS : ∀ {t' : AvlTree ι}, t'.bal = t0.bal → (CTree.node false .leaf k .leaf).Avl t'.bal := by
    intro t' ht'
    have h0 : t'.bal k = 0 := by rw [ht', hbal0, update_self]
    exact ⟨trivial, trivial, by simp [h0], by omega, by omega⟩
  cases hT : T.root? with
  | none =>
    obtain rfl := root?_eq_none.mp hT
    refine ⟨{ t0 with root := some k }.setParent k none, .node false .leaf k .leaf, ?_,
      ⟨rfl, ?_, ?_⟩, hS (by simp; rfl), rfl⟩
    · have hnone : t0.root = none := hroot.trans (h.root.trans hT)
      rw [insert, ← ht0]
      simp only [hnone]
    · obtain ⟨p, hp⟩ := hnode
      refine ⟨?_, trivial, trivial⟩
      rw [setParent_links]
      change update t0.links.heap k { t0.links.heap k with parent := none } k = _
      rw [update_self, hp]
      rfl
    · simp [CTree.keys]
  | some x =>
    have hne : ∀ y ∈ T.keys, y ≠ k := fun y hy he => hk (he ▸ hy)
    have h₀ : Rep t0.links (fill [] T) := h.congr hroot fun y hy => hheap y (hne y hy)
    obtain ⟨t1, fuel', hfuel', hloop, h1, hbal1⟩ := insertLoop_spec cmp h₀ hT hk hnode
      (show T.keys.card + T.keys.card ≤ fuel by omega)
    have hleaf := T.fill_place cmp k
    have hP : ((T.place cmp k).fill .leaf).Avl t1.bal := by
      rw [hleaf, hbal1, hbal0]
      exact hbal.update hk 0
    have hlen : (T.place cmp k).length < fuel' := by
      rw [← hleaf, keys_fill, CTree.keys, add_zero] at hfuel'
      exact lt_of_le_of_lt (length_le_card _) hfuel'
    obtain ⟨t', T', ht', h', hbal', hlist⟩ := insertRepair_spec h1 rfl (hS hbal1)
      ((avl_fill ..).mp hP).2 rfl (.inr rfl) hlen
    refine ⟨t', T', ?_, h', hbal', ?_⟩
    · rw [insert, ← ht0]
      simp only [hroot.trans (h.root.trans hT)]
      rw [hloop, ht']
    · rw [hlist, toList_fill]
      simp [toList, CTree.place]

omit [DecidableEq ι] in
theorem leftmost_spec (h : Rep t.links T) (hfuel : T.keys.card ≤ fuel) :
    t.leftmost fuel = some T.toList.head? := by
  rw [← h.leftmost hfuel, leftmost, RbTreeNocmp.leftmost, RbTreeNocmp.extreme]
  have hroot : t.links.root = t.root := rfl
  cases hr : t.root with
  | none => simp only [hroot, hr]
  | some n => simp only [hroot, hr, descendLeft_eq]

/-- An operation with the comparison function `cmp`: `avl_tree_insert` or `avl_tree_delete`. -/
def apply (cmp : ι → ι → ℤ) (fuel : ℕ) (t : AvlTree ι) : TreeOp ι → Option (AvlTree ι)
  | .insert k => t.insert cmp fuel k
  | .delete k => t.delete fuel k

end AvlTree

/-- The AVL tree as a search tree. -/
def avlSearchTree (ι : Type*) [DecidableEq ι] : SearchTree ι where
  Tree := AvlTree ι
  init t := { t with root := none }
  insert cmp fuel t k := t.insert cmp fuel k
  delete fuel t k := t.delete fuel k
  leftmost fuel t := t.leftmost fuel
  Holds t xs := ∃ T, Rep t.links T ∧ T.Avl t.bal ∧ T.toList = xs
  nodup := by
    rintro t xs ⟨T, h, -, rfl⟩
    rw [← Multiset.coe_nodup, T.coe_toList]
    exact h.nodup
  holds_init t := ⟨.leaf, ⟨rfl, trivial, by simp [CTree.keys]⟩, trivial, rfl⟩
  holds_insert := by
    rintro cmp t xs k fuel hcmp ⟨T, h, hbal, rfl⟩ hsorted hk hfuel
    rw [← Multiset.coe_card, T.coe_toList] at hfuel
    obtain ⟨t', T', ht', h', hbal', hlist⟩ :=
      AvlTree.insert_spec cmp h hbal (k := k) (by rwa [← T.mem_toList]) hfuel
    obtain ⟨hsorted', hperm⟩ := sortedBy_place hcmp hsorted k
    exact ⟨t', T'.toList, ht', ⟨T', h', hbal', rfl⟩, hlist ▸ hsorted', hlist ▸ hperm⟩
  holds_delete := by
    rintro t xs k fuel ⟨T, h, hbal, rfl⟩ hk hfuel
    rw [← Multiset.coe_card, T.coe_toList] at hfuel
    obtain ⟨t', T', ht', h', hbal', hlist⟩ := AvlTree.delete_spec h hbal (T.mem_toList.mp hk) hfuel
    exact ⟨t', ht', T', h', hbal', hlist⟩
  holds_leftmost := by
    rintro t xs fuel ⟨T, h, -, rfl⟩ hfuel
    rw [← Multiset.coe_card, T.coe_toList] at hfuel
    exact AvlTree.leftmost_spec h hfuel

/-- The nodes `live`, inserted in this order, are linked as an AVL tree. -/
structure AvlInv (cmp : ι → ι → ℤ) (live : List ι) (t : AvlTree ι) (T : CTree ι) : Prop where
  rep : Rep t.links T
  balanced : T.Avl t.bal
  order : StablySorted cmp live T.toList

theorem AvlInv.apply {cmp : ι → ι → ℤ} (hcmp : TotalPreorderCmp cmp) {live : List ι} {t : AvlTree ι}
    {op : TreeOp ι} {fuel : ℕ} (hnd : live.Nodup) (hfuel : 2 * live.length < fuel)
    (hop : op.Allowed live) (h : ∃ T, AvlInv cmp live t T) :
    ∃ t', t.apply cmp fuel op = some t' ∧ ∃ T', AvlInv cmp (op.live live) t' T' := by
  obtain ⟨T, h⟩ := h
  have hcard : T.keys.card = live.length := by
    rw [← T.coe_toList, Multiset.coe_card, h.order.perm.length_eq]
  have hmem : ∀ k, k ∈ T.keys ↔ k ∈ live := fun k => by rw [← T.mem_toList, h.order.perm.mem_iff]
  cases op with
  | insert k =>
    obtain ⟨t', T', ht', hrep, hbal, hlist⟩ := AvlTree.insert_spec cmp h.rep h.balanced (k := k)
      (by rw [hmem]; exact hop) (show 2 * T.keys.card < fuel by omega)
    exact ⟨t', ht', T', hrep, hbal, hlist ▸ h.order.insert_place hcmp k⟩
  | delete k =>
    obtain ⟨t', T', ht', hrep, hbal, hlist⟩ := AvlTree.delete_spec h.rep h.balanced (k := k)
      (by rw [hmem]; exact hop) (show T.keys.card ≤ fuel by omega)
    exact ⟨t', ht', T', hrep, hbal, hlist ▸ h.order.erase hnd k⟩

/-- For every comparison function that is a total preorder and every sequence of insertions of new
nodes and deletions of nodes of the tree, over memory with arbitrary contents: no function aborts or
follows a null pointer, and the loops end. Parent and child links agree with a tree in which every
stored balance is the height of the right subtree minus that of the left one and is -1, 0 or 1. Its
in-order sequence is sorted and has exactly the nodes that were inserted and not deleted, equal ones
in the order of their insertion. -/
theorem avl_tree_correct {cmp : ι → ι → ℤ} (hcmp : TotalPreorderCmp cmp) {ops : List (TreeOp ι)}
    (hops : TreeOp.AllAllowed [] ops) (heap : ι → AvlTreeNode ι) {fuel : ℕ}
    (hfuel : 2 * ops.length < fuel) :
    ∃ t T, ops.foldlM (fun t op => t.apply cmp fuel op) (⟨none, heap⟩ : AvlTree ι) = some t ∧
      Rep t.links T ∧ T.Avl t.bal ∧ StablySorted cmp (ops.foldl TreeOp.live []) T.toList := by
  have hinit : ∃ T, AvlInv cmp [] (⟨none, heap⟩ : AvlTree ι) T :=
    ⟨.leaf, ⟨rfl, trivial, by simp [CTree.keys]⟩, trivial, .nil⟩
  obtain ⟨t, hrun, T, h⟩ := TreeOp.run_inv (n := ops.length)
    (P := fun live t => ∃ T, AvlInv cmp live t T)
    (fun hnd hlen hop h => AvlInv.apply hcmp hnd ((Nat.mul_le_mul_left 2 hlen.le).trans_lt hfuel)
      hop h)
    List.nodup_nil hops (by simp) hinit
  exact ⟨t, T, hrun, h.rep, h.balanced, h.order⟩

/-- Three ascending nodes, which take a rotation, and the deletion of the new root. -/
theorem avl_tree_correct_ascending : let cmp : ℕ → ℕ → ℤ := fun a b => (a : ℤ) - b
    let ops : List (TreeOp ℕ) := [.insert 1, .insert 2, .insert 3, .delete 2]
    TotalPreorderCmp cmp ∧ TreeOp.AllAllowed [] ops ∧
      ∃ t T, ops.foldlM (fun t op => t.apply cmp 9 op)
          (⟨none, fun _ => ⟨0, none, none, none⟩⟩ : AvlTree ℕ) = some t ∧
        Rep t.links T ∧ T.Avl t.bal ∧ StablySorted cmp [1, 3] T.toList := by
  intro cmp ops
  have hcmp : TotalPreorderCmp cmp :=
    ⟨fun a b => by simp only [cmp]; omega, fun {a b c} hab hbc => by simp only [cmp] at *; omega⟩
  have hops : TreeOp.AllAllowed [] ops := by
    simp [ops, TreeOp.AllAllowed, TreeOp.Allowed, TreeOp.live]
  exact ⟨hcmp, hops, avl_tree_correct hcmp hops _ (by decide)⟩

end Pptk.Avltree
