import Pptk.Avltree.Avltree
import Pptk.Rbtree.Correct

/-!
# The AVL tree functions are correct

The links of an AVL tree are those of a red-black tree without colours (`links`), and
the functions that only move nodes are those of `rbtree.c` on them. Over the links,
`bal` has the stored balances, and `CTree.Avl` says that they are right.

A deletion repairs the balances first and takes the node out last, so in its loop the
balances are those of a tree that is not there yet: the path from the root to the node,
around the child of the node.

Main results: `rotateAt_spec`, `insertRepair_spec` and `deleteRepair_spec`.

None of them aborts, dereferences a null pointer or runs out of the given fuel.
-/

namespace Pptk.Avltree

open Pptk.Lib CTree Pptk.Rbtree Function TPath PNode

variable {ι : Type*}

/-! ## Links and balances -/

namespace AvlTree

/-- The links of the tree. -/
def links (t : AvlTree ι) : RbTreeNocmp ι :=
  ⟨t.root, fun k => ⟨false, (t.heap k).left, (t.heap k).right, (t.heap k).parent⟩⟩

/-- The stored balances. -/
def bal (t : AvlTree ι) (k : ι) : ℤ := (t.heap k).balance

variable (t : AvlTree ι) (n k : ι) (x y : Option ι) (d e : Side) (b : ℤ)

@[simp] theorem links_root : t.links.root = t.root := rfl

@[simp] theorem links_child : (t.links.heap k).child d = (t.heap k).child d := by cases d <;> rfl

@[simp] theorem links_left : (t.links.heap k).left = (t.heap k).left := rfl

@[simp] theorem links_right : (t.links.heap k).right = (t.heap k).right := rfl

@[simp] theorem links_parent : (t.links.heap k).parent = (t.heap k).parent := rfl

@[simp] theorem links_black : (t.links.heap k).black = false := rfl

variable [DecidableEq ι]

@[simp] theorem setChild_root : (t.setChild n x d).root = t.root := rfl

@[simp] theorem setChild_child : ((t.setChild n x d).heap k).child e =
    if k = n ∧ e = d then x else (t.heap k).child e := by
  by_cases h : k = n
  · subst h
    cases d <;> cases e <;> simp [setChild, AvlTreeNode.setChild, AvlTreeNode.child, Side.pick]
  · simp [setChild, h]

@[simp] theorem setChild_parent : ((t.setChild n x d).heap k).parent = (t.heap k).parent := by
  by_cases h : k = n
  · subst h
    cases d <;> simp [setChild, AvlTreeNode.setChild]
  · simp [setChild, h]

@[simp] theorem setChild_bal : (t.setChild n x d).bal = t.bal := by
  funext k
  by_cases h : k = n
  · subst h
    cases d <;> simp [bal, setChild, AvlTreeNode.setChild]
  · simp [bal, setChild, h]

@[simp] theorem setParent_root : (t.setParent n x).root = t.root := rfl

@[simp] theorem setParent_child : ((t.setParent n x).heap k).child e = (t.heap k).child e := by
  by_cases h : k = n <;> simp [setParent, AvlTreeNode.child, h]

@[simp] theorem setParent_parent : ((t.setParent n x).heap k).parent =
    if k = n then x else (t.heap k).parent := by
  by_cases h : k = n <;> simp [setParent, h]

@[simp] theorem setParent_bal : (t.setParent n x).bal = t.bal := by
  funext k
  by_cases h : k = n <;> simp [bal, setParent, h]

@[simp] theorem setParentOf_root : (t.setParentOf y x).root = t.root := by cases y <;> rfl

@[simp] theorem setParentOf_child : ((t.setParentOf y x).heap k).child e = (t.heap k).child e := by
  cases y <;> simp [setParentOf]

@[simp] theorem setParentOf_parent : ((t.setParentOf y x).heap k).parent =
    if y = some k then x else (t.heap k).parent := by
  cases y with
  | none => simp [setParentOf]
  | some n => simp [setParentOf, eq_comm]

@[simp] theorem setParentOf_bal : (t.setParentOf y x).bal = t.bal := by
  cases y <;> simp [setParentOf]

@[simp] theorem setBalance_bal : (t.setBalance n b).bal = update t.bal n b := by
  funext k
  by_cases h : k = n <;> simp [bal, setBalance, h]

@[simp] theorem setBalance_links : (t.setBalance n b).links = t.links := by
  refine RbTreeNocmp.ext rfl (funext fun k => ?_)
  by_cases h : k = n <;> simp [links, setBalance, h]

/-! ## Rotations -/

section Rotate

variable (p q : ι)

@[simp] theorem rotateLinks_root : (t.rotateLinks d p q).root = t.root := by simp [rotateLinks]

@[simp] theorem rotateLinks_child : ((t.rotateLinks d p q).heap k).child e =
    if k = q ∧ e = d then some p
    else if k = p ∧ e = d.other then (t.heap q).child d
    else (t.heap k).child e := by
  simp [rotateLinks]

@[simp] theorem rotateLinks_parent : ((t.rotateLinks d p q).heap k).parent =
    if k = p then some q
    else if (t.heap q).child d = some k then some p
    else (t.heap k).parent := by
  simp [rotateLinks]

@[simp] theorem rotateLinks_bal : (t.rotateLinks d p q).bal = t.bal := by simp [rotateLinks]

@[simp] theorem relink_root : (t.relink p q x).root = if x = none then some q else t.root := by
  cases x with
  | none => rfl
  | some g =>
    simp only [relink]
    split_ifs <;> simp_all

@[simp] theorem relink_child : ((t.relink p q x).heap k).child e =
    if x = some k ∧ e = sideOf t.links.heap k p then some q else (t.heap k).child e := by
  have hleft : ∀ g, ((t.setParent q x).heap g).left = (t.heap g).left := fun g =>
    setParent_child t q g x .left
  cases x with
  | none => simp [relink]
  | some g =>
    simp only [relink, hleft, sideOf, links_left]
    split_ifs <;> simp <;> grind

@[simp] theorem relink_parent : ((t.relink p q x).heap k).parent =
    if k = q then x else (t.heap k).parent := by
  cases x with
  | none => simp [relink]
  | some g =>
    simp only [relink]
    split_ifs <;> simp_all

@[simp] theorem relink_bal : (t.relink p q x).bal = t.bal := by
  cases x with
  | none =>
    funext k
    by_cases h : k = q <;> simp [relink, bal, setParent, h]
  | some g =>
    simp only [relink]
    split_ifs <;> simp_all

/-- The links after `relink` only depend on those before it. -/
theorem relink_links_congr {t : AvlTree ι} (t' : AvlTree ι) (h : t.links = t'.links) :
    (t.relink p q x).links = (t'.relink p q x).links := by
  have hroot : t.root = t'.root := congrArg RbTreeNocmp.root h
  have hheap : ∀ k, t.links.heap k = t'.links.heap k := fun k => by rw [h]
  refine RbTreeNocmp.ext (by simp [hroot]) (funext fun k => ?_)
  have hchild : ∀ e, (t.heap k).child e = (t'.heap k).child e := fun e => by
    rw [← links_child, hheap, links_child]
  have hparent : (t.heap k).parent = (t'.heap k).parent := congrArg parent (hheap k)
  refine ext_side .left rfl ?_ ?_ ?_
  · simp [h, hchild]
  · simp [h, hchild]
  · simp [hparent]

/-- A rotation of the code is the one of the library. -/
theorem rotateLinks_relink {d : Side} {t : AvlTree ι} {p q : ι}
    (hr : Rotatable d t.links.heap p q) :
    ((t.rotateLinks d p q).relink p q (t.heap p).parent).links =
      ⟨if (t.heap p).parent = none then some q else t.root, rotate d t.links.heap p q⟩ := by
  obtain ⟨hne, hq, ha, hb, hc, hu⟩ := hr
  simp only [links_child, links_parent, links_left, links_right] at hq ha hb hc hu
  have hleft : ∀ k, k ≠ p → k ≠ q → ((t.rotateLinks d p q).heap k).left = (t.heap k).left :=
    fun k hp hq => (rotateLinks_child t k d .left p q).trans (by simp [hp, hq]; rfl)
  refine RbTreeNocmp.ext (by simp) (funext fun k => ext_side d ?_ ?_ ?_ ?_)
  · simp [rotate_black]
  · simp only [links_child, links_parent, relink_child, rotateLinks_child, rotate_child, sideOf,
      links_left, Side.ne_other]
    grind
  · simp only [links_child, links_parent, relink_child, rotateLinks_child, rotate_child, sideOf,
      links_left, Side.other_ne]
    grind
  · simp only [links_child, links_parent, relink_parent, rotateLinks_parent, rotate_parent]
    grind

theorem relink_rotateLinks_relink {t : AvlTree ι} {p q z : ι} (hpq : p ≠ q)
    (hside : sideOf t.links.heap p z = d.other) :
    (((t.relink z q (some p)).rotateLinks d p q).relink p q x).links =
      ((t.rotateLinks d p q).relink p q x).links := by
  have hchild : ∀ k e, (((t.relink z q (some p)).rotateLinks d p q).heap k).child e =
      ((t.rotateLinks d p q).heap k).child e := fun k e => by
    by_cases hk : k = p
    · subst hk
      simp only [rotateLinks_child, relink_child, hside]
      split_ifs <;> simp_all
    · simp [hk, Ne.symm hk]
  have hside' : ∀ k, sideOf ((t.relink z q (some p)).rotateLinks d p q).links.heap k p =
      sideOf (t.rotateLinks d p q).links.heap k p := fun k => sideOf_congr (hchild k .left)
  refine RbTreeNocmp.ext (by simp) (funext fun k => ext_side d rfl ?_ ?_ ?_)
  · simp only [links_child, relink_child, hchild, hside']
  · simp only [links_child, relink_child, hchild, hside']
  · simp only [links_parent, relink_parent, rotateLinks_parent, relink_child]
    split_ifs <;> simp_all

/-- The links of a double rotation are those of two single ones: of `z` below `x`, and then of `x`.
-/
theorem rotateLinks_double_relink {d : Side} {t : AvlTree ι} {x y z : ι}
    (hr : Rotatable d.other t.links.heap z y) (hz : (t.heap z).parent = some x)
    (hx : sideOf t.links.heap x z = d.other)
    (hr' : Rotatable d (rotate d.other t.links.heap z y) x y) :
    (((t.rotateLinks d.other z y).rotateLinks d x y).relink x y (t.heap x).parent).links =
      ⟨if (t.heap x).parent = none then some y else t.root,
        rotate d (rotate d.other t.links.heap z y) x y⟩ := by
  obtain ⟨t1, ht1⟩ : ∃ t1, t1 = (t.rotateLinks d.other z y).relink z y (some x) := ⟨_, rfl⟩
  obtain ⟨⟨hxz, hxy⟩, -, -, hin, -⟩ := hr.above x hz
  have hlinks : t1.links = ⟨t.root, rotate d.other t.links.heap z y⟩ := by
    rw [ht1, ← hz, rotateLinks_relink hr, if_neg (by simp [hz])]
  have hpar : (t1.heap x).parent = (t.heap x).parent := by
    rw [← links_parent, hlinks, rotate_parent, if_neg hxz, if_neg hxy, if_neg hin, links_parent]
  have hside : sideOf (t.rotateLinks d.other z y).links.heap x z = d.other := by
    refine (sideOf_congr ?_).trans hx
    exact (rotateLinks_child t x d.other .left z y).trans (by simp [hxz, hxy]; rfl)
  have hrot := rotateLinks_relink (t := t1) (d := d) (by rw [hlinks]; exact hr')
  rw [hpar, ht1, relink_rotateLinks_relink _ _ hxy hside, ← ht1, hlinks] at hrot
  rw [hrot, ← links_root, hlinks]

end Rotate

section RotateAt

variable {t : AvlTree ι} {C : TPath ι} {d : Side} {c c' c'' : Bool} {x y z : ι} {a b b' u : CTree ι}

theorem rotateSide_links (d : Side) (t : AvlTree ι) (x z : ι) :
    (t.rotateSide d x z).1.links = (t.rotateLinks d x z).links := by
  simp only [rotateSide]
  split_ifs <;> simp

/-- The balances after a single rotation. -/
theorem rotateSide_bal (d : Side) (t : AvlTree ι) (x z : ι) : (t.rotateSide d x z).1.bal =
    update (update t.bal x (if t.bal z = 0 then -d.weight else 0)) z
      (if t.bal z = 0 then d.weight else 0) := by
  have hz : ((t.rotateLinks d x z).heap z).balance = t.bal z := congrFun (rotateLinks_bal t d x z) z
  simp only [rotateSide, hz]
  split_ifs <;> simp

/-- A single rotation represents the rotated tree. -/
theorem rotateSide_rep (h : Rep t.links (C.fill (.mk d c x a (.mk d c' z b u)))) :
    Rep ((t.rotateSide d x z).1.relink x z C.parent?).links
      (C.fill (.mk d c' z (.mk d c x a b) u)) := by
  have hpar : C.parent? = (t.heap x).parent := by rw [← links_parent, h.heap_eq, parent_mk']
  rw [relink_links_congr _ _ _ _ (rotateSide_links d t x z), hpar,
    rotateLinks_relink (rotatable_of_shape h.shape h.nodup)]
  exact h.rotate

/-- A double rotation represents the twice rotated tree. -/
theorem rotateDouble_rep
    (h : Rep t.links (C.fill (.mk d c x a (.mk d c' z (.mk d c'' y b b') u)))) :
    ∃ t', t.rotateDouble d x z = some (t', y) ∧
      Rep (t'.relink x y C.parent?).links (C.fill (.mk d c'' y (.mk d c x a b) (.mk d c' z b' u))) ∧
      t'.bal = update (update (update t.bal x
        (if d.weight * t.bal y < 0 then d.weight else 0)) z
        (if d.weight * t.bal y > 0 then -d.weight else 0)) y 0 := by
  have hpar : C.parent? = (t.heap x).parent := by rw [← links_parent, h.heap_eq, parent_mk']
  -- the tree seen from `z`, on its other side
  have hz : Rep t.links (fill (⟨d.other, c, x, a⟩ :: C)
      (.mk d.other c' z u (.mk d.other c'' y b' b))) := by
    rw [mk_other, mk_other]
    exact Rep.far_iff.mpr h
  have hzpar : (t.heap z).parent = some x := by
    rw [← links_parent, hz.heap_eq, parent_mk']
    rfl
  have hzy : (t.heap z).child d = some y := by
    rw [← links_child, hz.heap_eq, mk'_other, child_mk', root?_mk]
  have hside : sideOf t.links.heap x z = d.other := by
    have hne := h.root?_ne (.inr (mk_ne_leaf _ _ _ _ _))
    refine sideOf_eq (by rw [h.heap_eq, child_other_mk', root?_mk]) ?_
    rw [h.heap_eq, Side.other_other, child_mk']
    rwa [root?_mk] at hne
  have hr := rotatable_of_shape hz.shape hz.nodup
  obtain ⟨⟨hxz, hxy⟩, -, -, hin, -⟩ := hr.above x hzpar
  have h1 : Rep ⟨t.root, rotate d.other t.links.heap z y⟩
      (C.fill (.mk d c x a (.mk d c'' y b (.mk d c' z b' u)))) := by
    have h1 := hz.rotate
    rw [mk_other, mk_other, links_parent, hzpar] at h1
    exact Rep.far_iff.mp h1
  have hxpar : (rotate d.other t.links.heap z y x).parent = (t.heap x).parent := by
    rw [rotate_parent, if_neg hxz, if_neg hxy, if_neg hin, links_parent]
  have h2 := h1.rotate
  rw [hxpar] at h2
  have hlinks := rotateLinks_double_relink hr hzpar hside (rotatable_of_shape h1.shape h1.nodup)
  rw [← hlinks] at h2
  obtain ⟨t1, ht1⟩ : ∃ t1, t1 = (t.rotateLinks d.other z y).rotateLinks d x y := ⟨_, rfl⟩
  have hbal : t1.bal = t.bal := by simp [ht1]
  have hy : (t1.heap y).balance = t.bal y := congrFun hbal y
  rw [← ht1, ← hpar] at h2
  simp only [rotateDouble, hzy, ← ht1, hy, Option.some.injEq, Prod.mk.injEq, and_true]
  refine ⟨_, rfl, ?_, ?_⟩
  · rw [relink_links_congr _ _ _ t1]
    · exact h2
    · split_ifs <;> simp
  · rcases lt_trichotomy (d.weight * t.bal y) 0 with hlt | heq | hgt
    · simp [hlt, hlt.not_gt, hbal]
    · simp [heq, hbal]
    · simp [hgt, hgt.not_gt, hgt.ne', hbal]

theorem rotateAt_eq (d : Side) (t : AvlTree ι) (x z : ι) : t.rotateAt d x z =
    if d.weight * t.bal z > 0 then t.rotateDouble d x z else some (t.rotateSide d x z) := by
  cases d <;> rfl

/-- The rotation of the repair loops, at the node of the frame `f`: the subtree `a` is moved up by
one level, together with what follows from it for the balances. -/
theorem rotateAt_spec {f : Frame ι} (h : Rep t.links (fill (f :: C) a)) (hz : f.sib.root? = some z)
    (hbal : f.sib.Avl t.bal) :
    ∃ t' n F, t.rotateAt f.side f.key z = some (t', n) ∧ (∀ V, (fill F V).root? = some n) ∧
      Rep (t'.relink f.key n C.parent?).links (fill (F ++ C) a) ∧
      TPath.Rotated t.bal t'.bal f z F := by
  obtain ⟨d, c, x, Z⟩ := f
  obtain ⟨c', z', b, u, rfl⟩ := exists_mk d (t := Z) (by rintro rfl; simp [root?] at hz)
  obtain rfl : z' = z := by simpa using hz
  have hnd := (nodup_fill_cons h.nodup).2.2
  have hxz : x ≠ z' := by
    rintro rfl
    simp [TPath.keys] at hnd
  rw [rotateAt_eq]
  dsimp only at hbal ⊢
  split_ifs with hdouble
  · have hb : b ≠ .leaf := by
      rintro rfl
      have := (avl_mk.mp hbal).2.2.1
      rw [height_leaf] at this
      omega
    obtain ⟨c'', y, b1, b2, rfl⟩ := exists_mk d hb
    obtain ⟨t', ht', hrep, hbal'⟩ := rotateDouble_rep h
    have hyne : y ≠ x ∧ y ≠ z' := by
      simp only [TPath.keys, keys_mk, Multiset.nodup_cons, Multiset.mem_cons, Multiset.mem_add,
        Multiset.cons_add, not_or] at hnd
      exact ⟨Ne.symm hnd.1.2.1, Ne.symm hnd.2.1.1⟩
    refine ⟨t', y, _, ht', fun V => ?_, ?_, TPath.Rotated.double hbal hdouble hnd ?_ ?_ ?_ ?_⟩
    · exact root?_mk ..
    · exact hrep
    · simp [hbal', hyne.1.symm, hxz]
    · simp [hbal', hyne.2.symm]
    · simp [hbal']
    · intro k h1 h2 h3
      simp [hbal', h1, h2, h3]
  · have hroot : t.rotateSide d x z' = ((t.rotateSide d x z').1, z') := by
      simp only [rotateSide]
      split_ifs <;> rfl
    refine ⟨_, z', [⟨d, c, x, b⟩, ⟨d, c', z', u⟩], congrArg some hroot, fun V => ?_,
      rotateSide_rep h, TPath.Rotated.single hbal (not_lt.mp hdouble) hnd ?_ ?_ ?_⟩
    · exact root?_mk ..
    · simp [rotateSide_bal, hxz]
    · simp [rotateSide_bal]
    · intro k h1 h2
      simp [rotateSide_bal, h1, h2]

end RotateAt

/-! ## Insertion -/

section Insert

variable {t : AvlTree ι} {f : Frame ι} {up : TPath ι} {S : CTree ι} {z : ι}

omit [DecidableEq ι] in
theorem parent_eq {C : TPath ι} (h : Rep t.links (C.fill S)) (hz : S.root? = some z) :
    (t.heap z).parent = C.parent? := by
  have hs := h.shape
  rw [shape_fill] at hs
  exact hs.2.parent_of_root hz

theorem side_of_right (h : Rep t.links (fill (f :: up) S)) (hz : S.root? = some z) :
    (if (t.heap f.key).right = some z then Side.right else Side.left) = f.side := by
  have hne := Rep.root?_ne (C := up) h (.inl (by rintro rfl; simp [root?] at hz))
  have hright : (t.heap f.key).right = some z ↔ f.side = .right := by
    rw [← hz]
    exact Rep.child_eq_iff (C := up) h hne .right
  by_cases hs : f.side = .right
  · rw [if_pos (hright.mpr hs), hs]
  · rw [if_neg (hright.not.mpr hs)]
    exact (Side.eq_other_of_ne hs).symm

omit [DecidableEq ι] in
theorem key_notMem (h : (fill (f :: up) S).keys.Nodup) :
    f.key ∉ S.keys ∧ f.key ∉ f.sib.keys ∧ f.key ∉ keys up := by
  obtain ⟨hS, hup, hf⟩ := TPath.nodup_fill_cons h
  simp only [TPath.keys, Multiset.mem_cons, not_or, add_zero, Multiset.nodup_cons] at hS hup hf
  exact ⟨fun hk => (hS _ hk).1 rfl, hf.1, fun hk => (hup _ hk).1 rfl⟩

/-- `avl_tree_insert_repair`: the subtree `S` at `z` is one higher than the balances above it say.
-/
theorem insertRepair_spec {P : TPath ι} {n fuel : ℕ} (h : Rep t.links (P.fill S))
    (hz : S.root? = some z) (hS : S.Avl t.bal) (hP : P.Avl t.bal n) (hn : S.height = n + 1)
    (hne : t.bal z ≠ 0 ∨ n = 0) (hfuel : P.length < fuel) :
    ∃ t' T', t.insertRepair fuel z = some t' ∧ Rep t'.links T' ∧ T'.Avl t'.bal ∧
      T'.toList = (P.fill S).toList := by
  induction P generalizing t S z n fuel with
  | nil =>
    obtain ⟨fuel, rfl⟩ : ∃ m, fuel = m + 1 := ⟨fuel - 1, by omega⟩
    refine ⟨t, S, ?_, h, hS, rfl⟩
    simp [insertRepair, parent_eq h hz, parent?]
  | cons f up ih =>
    obtain ⟨fuel, rfl⟩ : ∃ m, fuel = m + 1 := ⟨fuel - 1, by omega⟩
    obtain ⟨⟨hsib, hf, h1, h2⟩, hup⟩ := hP
    have hpar : (t.heap z).parent = some f.key := parent_eq h hz
    have hside := side_of_right h hz
    obtain ⟨hSf, hsf, hupf⟩ := key_notMem h.nodup
    have hg : (t.heap f.key).parent = parent? up :=
      parent_eq (C := up) (S := f.fill S) h (Frame.root?_fill ..)
    have hbalx : (t.heap f.key).balance = t.bal f.key := rfl
    simp only [insertRepair, hpar, hside, hbalx, hg]
    have hw := f.side.weight_eq
    split_ifs with hheavy hlight
    · -- `S` is two higher than the other subtree
      have hsz : f.side.weight * t.bal f.key = 1 := by
        rcases hw with hw | hw <;> rw [hw] at hheavy ⊢ <;> omega
      have h' : Rep t.links (fill (⟨f.side.other, f.black, f.key, S⟩ :: up) f.sib) := by
        rw [← fill_swap]
        exact h
      obtain ⟨hsk', hupk', -⟩ := nodup_fill_cons h'.nodup
      obtain ⟨t', x, F, hrot, -, hrep, hF⟩ := rotateAt_spec h' hz hS
      rw [← hF.keys] at hsk' hupk'
      obtain ⟨havl, hheight⟩ := hF.avl hsib hsk' (show S.height = f.sib.height + 2 by omega)
      rw [if_neg (hne.resolve_right (by omega))] at hheight
      refine ⟨t'.relink f.key x (parent? up), _, ?_, hrep, ?_, ?_⟩
      · simp only [hrot]
        rfl
      · rw [relink_bal, fill_append, avl_fill, hheight,
          show f.sib.height + 2 = 1 + max n f.sib.height by omega]
        exact ⟨havl, hup.congr fun k hk => hF.bal k (hupk' k hk)⟩
      · rw [fill_append, toList_fill, toList_fill, hF.before, hF.after,
          ← toList_fill, ← toList_fill, ← fill_append, List.singleton_append,
          ← fill_swap]
    · -- the two subtrees are now of the same height
      have hsz : f.side.weight * t.bal f.key = -1 := by
        rcases hw with hw | hw <;> rw [hw] at hlight ⊢ <;> omega
      refine ⟨t.setBalance f.key 0, _, rfl, by rwa [setBalance_links], ?_, rfl⟩
      rw [setBalance_bal, fill_cons, avl_fill, Frame.fill, height_mk,
        show 1 + max S.height f.sib.height = 1 + max n f.sib.height by omega]
      exact ⟨avl_fill_update hS hsib hSf hsf (by omega) (by omega) (by omega), hup.update hupf 0⟩
    · have hsz : f.sib.height = n := by omega
      have hb : (t.setBalance f.key f.side.weight).bal =
        update t.bal f.key f.side.weight := setBalance_bal ..
      have hS' : (f.fill S).Avl (t.setBalance f.key f.side.weight).bal := by
        rw [hb]
        refine avl_fill_update hS hsib hSf hsf ?_ ?_ ?_ <;>
          rcases hw with hw | hw <;> rw [hw] <;> omega
      have hne' : (t.setBalance f.key f.side.weight).bal f.key ≠ 0 := by
        rw [hb, update_self]
        rcases hw with hw | hw <;> omega
      exact ih (S := f.fill S) (by rwa [setBalance_links]) (Frame.root?_fill ..) hS'
        (hb ▸ hup.update hupf _) (by rw [Frame.fill, height_mk]; omega) (.inl hne')
        (by simpa using hfuel)

end Insert

/-! ## Deletion -/

section Delete

variable {t : AvlTree ι} {f : Frame ι} {up : TPath ι} {N V : CTree ι} {n : ι}

theorem side_of_left (h : Rep t.links (fill (f :: up) N)) (hn : N.root? = some n) :
    (if (t.heap f.key).left = some n then Side.left else Side.right) = f.side := by
  have hs := h.shape
  rw [shape_fill, hn] at hs
  refine hs.1.sideOf_eq fun hk => ?_
  have hnd := h.nodup
  rw [keys_fill, Multiset.nodup_add, Multiset.disjoint_left] at hnd
  exact hnd.2.2 hk (mem_keys_of_root? hn)

@[simp] theorem deleteRepair_none (fuel : ℕ) (t : AvlTree ι) (n : ι) :
    t.deleteRepair fuel n none = some t := by
  cases fuel <;> rfl

variable {Q : TPath ι}

omit [DecidableEq ι] in
theorem keys_fill_subset (hVN : ∀ k ∈ V.keys, k ∈ N.keys) :
    ∀ k ∈ (Q.fill V).keys, k ∈ (Q.fill N).keys := by
  intro k hk
  rw [keys_fill, Multiset.mem_add] at hk ⊢
  exact hk.imp_right (hVN k)

/-- The rotation of `avl_tree_delete_repair`, where `V` will be in the place of the tree `N` and the
path `Q` is right around it. -/
theorem deleteRotate_spec {z : ι} {m : ℕ} (h : Rep t.links (fill (f :: up) (Q.fill N)))
    (hz : f.sib.root? = some z) (hsib : f.sib.Avl t.bal) (hV : (Q.fill V).Avl t.bal)
    (hup : up.Avl t.bal m) (hVN : ∀ k ∈ V.keys, k ∈ N.keys)
    (hsz : f.sib.height = (Q.fill V).height + 2) :
    ∃ t' x F t'', t.rotateAt f.side f.key z = some (t', x) ∧
      t'' = t'.relink f.key x up.parent? ∧ TPath.Rotated t.bal t''.bal f z F ∧
      Rep t''.links (up.fill (fill (Q ++ F) N)) ∧ (fill (Q ++ F) N).root? = some x ∧
      (fill (Q ++ F) V).Avl t''.bal ∧ up.Avl t''.bal m ∧
      (fill (Q ++ F) V).height = (Q.fill V).height + if t.bal z = 0 then 3 else 2 := by
  obtain ⟨hNk, hupk, -⟩ := nodup_fill_cons h.nodup
  obtain ⟨t', x, F, hrot, hroot, hrep, hF⟩ := rotateAt_spec h hz hsib
  rw [← hF.keys] at hNk hupk
  obtain ⟨havl, hheight⟩ := hF.avl hV (fun k hk => hNk k (keys_fill_subset hVN k hk)) hsz
  have hF' : TPath.Rotated t.bal (t'.relink f.key x up.parent?).bal f z F := by rwa [relink_bal]
  refine ⟨t', x, F, _, hrot, rfl, hF', ?_, ?_, ?_, ?_, ?_⟩
  · rw [fill_append, ← fill_append F]
    exact hrep
  · rw [fill_append, hroot]
  · rw [relink_bal, fill_append]
    exact havl
  · exact hup.congr fun k hk => hF'.bal k (hupk k hk)
  · rw [fill_append, hheight]

/-- `avl_tree_delete_repair`, with the tree `N` in the place of which there will be `V`: the path
`Q` up to the node `n` is right around `V`, and the path `P` above it is right for a subtree that is
one higher. -/
theorem deleteRepair_spec {P : TPath ι} {m fuel : ℕ} (h : Rep t.links (P.fill (Q.fill N)))
    (hn : (Q.fill N).root? = some n) (hV : (Q.fill V).Avl t.bal) (hP : P.Avl t.bal m)
    (hm : (Q.fill V).height + 1 = m) (hVN : ∀ k ∈ V.keys, k ∈ N.keys) (hfuel : P.length ≤ fuel) :
    ∃ t' Q', t.deleteRepair fuel n P.parent? = some t' ∧ Rep t'.links (fill Q' N) ∧
      (fill Q' V).Avl t'.bal ∧ before Q' = before (Q ++ P) ∧
      after Q' = after (Q ++ P) := by
  induction P generalizing t Q n m fuel with
  | nil => exact ⟨t, Q, by simp [parent?], h, hV, by simp, by simp⟩
  | cons f up ih =>
    obtain ⟨fuel, rfl⟩ : ∃ m, fuel = m + 1 := ⟨fuel - 1, by simp at hfuel; omega⟩
    have hfuel : up.length ≤ fuel := by simpa using hfuel
    obtain ⟨⟨hsib, hf, h1, h2⟩, hup⟩ := hP
    have hside := side_of_left h hn
    obtain ⟨hNf, hsf, hupf⟩ := key_notMem h.nodup
    have hVf : f.key ∉ (Q.fill V).keys := fun hk => hNf (keys_fill_subset hVN _ hk)
    have hg : (t.heap f.key).parent = parent? up :=
      parent_eq (C := up) (S := f.fill (Q.fill N)) h (Frame.root?_fill ..)
    have hbal : ∀ k, (t.heap k).balance = t.bal k := fun _ => rfl
    have hw := f.side.weight_eq
    rw [show parent? (f :: up) = some f.key from rfl]
    simp only [deleteRepair, hside, hbal, hg]
    split_ifs with hheavy hzero
    · -- the other subtree is two higher
      have hsz : f.sib.height = (Q.fill V).height + 2 := by
        rcases hw with hw | hw <;> rw [hw] at hf hheavy <;> omega
      obtain ⟨z, hz⟩ : ∃ z, f.sib.root? = some z :=
        Option.ne_none_iff_exists'.mp fun he => by simp [root?_eq_none.mp he] at hsz
      have hchild : (t.heap f.key).child f.side.other = some z := by
        rw [← links_child, ← hz]
        exact (congrArg (child · _) (Rep.heap_eq (C := up) h)).trans (by simp)
      obtain ⟨t', x, F, t'', hrot, ht'', hF, hrep, hroot, havl, hup', hheight⟩ :=
        deleteRotate_spec h hz hsib hV hup hVN hsz
      simp only [hchild, hrot, Option.bind_eq_bind, Option.bind_some, ← ht'']
      rw [← hF.before_append, ← hF.after_append]
      by_cases h0 : t.bal z = 0
      · -- the subtree has its old height, and the loop ends
        rw [if_pos h0] at hheight
        refine ⟨t'', Q ++ F ++ up, ?_, ?_, ?_, rfl, rfl⟩
        · cases up <;> simp [parent?, h0]
        · rwa [fill_append]
        · rw [fill_append, avl_fill, hheight,
            show (Q.fill V).height + 3 = 1 + max m f.sib.height by omega]
          exact ⟨havl, hup'⟩
      · rw [if_neg h0] at hheight
        rw [if_neg fun hc => h0 hc.2]
        exact ih hrep hroot havl hup' (by omega) hfuel
    · -- the subtree keeps its height
      refine ⟨t.setBalance f.key (-f.side.weight), Q ++ f :: up, rfl, ?_, ?_, rfl, rfl⟩
      · rw [setBalance_links, fill_append]
        exact h
      · rw [setBalance_bal, fill_append, fill_cons, avl_fill, Frame.fill,
          height_mk, show 1 + max (Q.fill V).height f.sib.height = 1 + max m f.sib.height by omega]
        refine ⟨avl_fill_update hV hsib hVf hsf ?_ ?_ ?_, hup.update hupf _⟩ <;>
          rcases hw with hw | hw <;> rw [hw] <;> omega
    · have hsz : f.sib.height = (Q.fill V).height := by
        rcases hw with hw | hw <;> rw [hw] at hf hheavy hzero <;> omega
      have hQ : ∀ u, fill (Q ++ [f]) u = f.fill (Q.fill u) := fun u => fill_append ..
      have hb : (t.setBalance f.key 0).bal = update t.bal f.key 0 := setBalance_bal ..
      have hV' : (fill (Q ++ [f]) V).Avl (t.setBalance f.key 0).bal := by
        rw [hb, hQ]
        exact avl_fill_update hV hsib hVf hsf (by omega) (by omega) (by omega)
      rw [← List.singleton_append, ← List.append_assoc]
      exact ih (by rw [setBalance_links, hQ]; exact h) (by rw [hQ]; exact Frame.root?_fill ..) hV'
        (hb ▸ hup.update hupf 0) (by rw [hQ, Frame.fill, height_mk]; omega) hfuel

end Delete

/-! ## Two nodes change places -/

section Exchange

variable (n1 n2 : ι)

@[simp] theorem setLeft_links : (t.setChild n x .left).links = t.links.setLeft n x := by
  refine RbTreeNocmp.ext rfl (funext fun k => ?_)
  by_cases h : k = n <;> simp [links, setChild, RbTreeNocmp.setLeft, AvlTreeNode.setChild, h]

@[simp] theorem setRight_links : (t.setChild n x .right).links = t.links.setRight n x := by
  refine RbTreeNocmp.ext rfl (funext fun k => ?_)
  by_cases h : k = n <;> simp [links, setChild, RbTreeNocmp.setRight, AvlTreeNode.setChild, h]

@[simp] theorem setParent_links : (t.setParent n x).links = t.links.setParent n x := by
  refine RbTreeNocmp.ext rfl (funext fun k => ?_)
  by_cases h : k = n <;> simp [links, setParent, RbTreeNocmp.setParent, h]

@[simp] theorem setParentOf_links : (t.setParentOf y x).links = t.links.setParentOf y x := by
  cases y with
  | none => rfl
  | some n => exact setParent_links t n x

theorem links_setIsBlack : (({ t.links with root := x }.setIsBlack n1 false).setIsBlack n2 false) =
    ({ t with root := x } : AvlTree ι).links := by
  have hself : ∀ {r : RbTreeNocmp ι} {n : ι}, (r.heap n).black = false →
    r.setIsBlack n false = r := by
    intro r n h
    refine RbTreeNocmp.ext rfl (funext fun k => ?_)
    by_cases hk : k = n
    · subst hk
      simp [RbTreeNocmp.setIsBlack, paint, ← h]
    · simp [RbTreeNocmp.setIsBlack, paint, hk]
  exact (congrArg (RbTreeNocmp.setIsBlack · n2 false) (hself rfl)).trans (hself rfl)

theorem replaceChild_links : (t.replaceChild x n1 n2).map links = t.links.replaceChild x n1 n2 := by
  cases x with
  | none => rfl
  | some u =>
    simp only [replaceChild, RbTreeNocmp.replaceChild, links_left, links_right]
    split_ifs <;> simp_all

variable {t' : AvlTree ι}

theorem replaceChild_bal {t : AvlTree ι} {n1 n2 : ι} {x : Option ι}
    (h : t.replaceChild x n1 n2 = some t') : t'.bal = t.bal := by
  cases x with
  | none =>
    rw [replaceChild, Option.some.injEq] at h
    rw [h]
  | some u =>
    simp only [replaceChild] at h
    split_ifs at h <;> simp only [Option.some.injEq] at h <;> rw [← h, setChild_bal]

theorem exchangeChildLinks_links :
    (t.exchangeChildLinks d n1 n2).links = t.links.exchangeChildLinks d n1 n2 := by
  cases d <;> simp [exchangeChildLinks, RbTreeNocmp.exchangeChildLinks, Side.pick]

theorem exchangeChild_links :
    (t.exchangeChild d n1 n2).map links = t.links.exchangeChild d n1 n2 := by
  simp only [exchangeChild, RbTreeNocmp.exchangeChild, ← exchangeChildLinks_links, links_parent,
    ← replaceChild_links, links_black]
  cases (t.exchangeChildLinks d n1 n2).replaceChild (t.heap n1).parent n1 n2 with
  | none => rfl
  | some t' =>
    simp only [Option.bind_eq_bind, Option.bind_some, Option.map_some, setBalance_links]
    exact congrArg some (links_setIsBlack ..).symm

theorem exchangeLinks_links (a b : AvlTreeNode ι) :
    (t.exchangeLinks n1 n2 a b).links = t.links.exchangeLinks n1 n2
      ⟨false, a.left, a.right, a.parent⟩ ⟨false, b.left, b.right, b.parent⟩ := by
  simp [exchangeLinks, RbTreeNocmp.exchangeLinks]

theorem exchangeApart_links : (t.exchangeApart n1 n2).map links = t.links.exchangeApart n1 n2 := by
  simp only [exchangeApart, RbTreeNocmp.exchangeApart, links_parent, ← replaceChild_links,
    links_black]
  cases t.replaceChild (t.heap n1).parent n1 n2 with
  | none => rfl
  | some t1 =>
    simp only [Option.bind_eq_bind, Option.bind_some, Option.map_some, ← replaceChild_links]
    cases t1.replaceChild (t.heap n2).parent n2 n1 with
    | none => rfl
    | some t2 =>
      have hlinks : t2.links.exchangeLinks n1 n2 (t.links.heap n1) (t.links.heap n2) =
          (t2.exchangeLinks n1 n2 (t.heap n1) (t.heap n2)).links := (exchangeLinks_links ..).symm
      obtain ⟨t3, ht3⟩ : ∃ t3, t3 = t2.exchangeLinks n1 n2 (t.heap n1) (t.heap n2) := ⟨_, rfl⟩
      simp only [Option.bind_some, Option.map_some, hlinks, ← ht3, links_parent]
      split_ifs <;> simp only [Option.map_some, Option.map_none, setBalance_links] <;>
        exact congrArg some (links_setIsBlack ..).symm

theorem exchangeOnce_links (again : Option (AvlTree ι)) :
    (t.exchangeOnce again n1 n2).map links = t.links.exchangeOnce (again.map links) n1 n2 := by
  simp only [exchangeOnce, RbTreeNocmp.exchangeOnce, links_parent, links_left, links_right,
    ← exchangeChild_links, ← exchangeApart_links]
  split_ifs <;> rfl

/-- The links are exchanged as in a red-black tree. -/
theorem exchange_links : (t.exchange n1 n2).map links = t.links.exchange n1 n2 := by
  rw [exchange, exchangeOnce_links, exchangeOnce_links]
  rfl

variable {t n1 n2 d}

theorem update_update_bal (t : AvlTree ι) (n1 n2 : ι) :
    update (update t.bal n1 (t.bal n2)) n2 (t.bal n1) = fun k => t.bal (Equiv.swap n1 n2 k) := by
  funext k
  rw [Equiv.swap_apply_def]
  split_ifs with h1 h2
  · subst h1
    by_cases h : k = n2 <;> simp [h]
  · rw [h2, update_self]
  · rw [update_of_ne h2, update_of_ne h1]

theorem exchangeChild_bal (h : t.exchangeChild d n1 n2 = some t') :
    t'.bal = fun k => t.bal (Equiv.swap n1 n2 k) := by
  rw [exchangeChild] at h
  obtain ⟨t1, ht1, h⟩ := Option.bind_eq_some_iff.mp h
  have hbal : t1.bal = t.bal := (replaceChild_bal ht1).trans (by simp [exchangeChildLinks])
  simp only [Option.some.injEq] at h
  rw [← h, ← update_update_bal, setBalance_bal, setBalance_bal]
  exact congrArg (fun B => update (update B n1 (t.bal n2)) n2 (t.bal n1)) hbal

theorem exchangeApart_bal (h : t.exchangeApart n1 n2 = some t') :
    t'.bal = fun k => t.bal (Equiv.swap n1 n2 k) := by
  rw [exchangeApart] at h
  obtain ⟨t1, ht1, h⟩ := Option.bind_eq_some_iff.mp h
  obtain ⟨t2, ht2, h⟩ := Option.bind_eq_some_iff.mp h
  have hbal : (t2.exchangeLinks n1 n2 (t.heap n1) (t.heap n2)).bal = t.bal := by
    rw [← replaceChild_bal ht1, ← replaceChild_bal ht2]
    simp [exchangeLinks]
  dsimp only at h
  split at h
  · simp at h
  simp only [Option.some.injEq] at h
  rw [← h, ← update_update_bal, setBalance_bal, setBalance_bal]
  exact congrArg (fun B => update (update B n1 (t.bal n2)) n2 (t.bal n1)) hbal

theorem exchangeOnce_bal {again : Option (AvlTree ι)}
    (hagain : again = some t' → t'.bal = fun k => t.bal (Equiv.swap n1 n2 k))
    (h : t.exchangeOnce again n1 n2 = some t') : t'.bal = fun k => t.bal (Equiv.swap n1 n2 k) := by
  rw [exchangeOnce] at h
  split_ifs at h
  · exact exchangeChild_bal h
  · exact exchangeChild_bal h
  · exact hagain h
  · exact exchangeApart_bal h

/-- The exchange of two nodes also swaps their balances. -/
theorem exchange_bal (h : t.exchange n1 n2 = some t') :
    t'.bal = fun k => t.bal (Equiv.swap n1 n2 k) := by
  refine exchangeOnce_bal (fun h' => ?_) h
  rw [Equiv.swap_comm]
  exact exchangeOnce_bal (by simp) h'

/-- A node is exchanged with one below it. -/
theorem exchange_spec {C P : TPath ι} {c1 c2 : Bool} {a b : ι} {L R : CTree ι}
    (h : Rep t.links (C.fill (.mk d c1 a (P.fill (.mk d c2 b L .leaf)) R)))
    (hbal : (C.fill (.mk d c1 a (P.fill (.mk d c2 b L .leaf)) R)).Avl t.bal) :
    ∃ t', t.exchange a b = some t' ∧
      Rep t'.links (C.fill (.mk d c1 b (P.fill (.mk d c2 a L .leaf)) R)) ∧
      (C.fill (.mk d c1 b (P.fill (.mk d c2 a L .leaf)) R)).Avl t'.bal := by
  obtain ⟨r, hr, hrep⟩ := h.exchange
  rw [← exchange_links, Option.map_eq_some_iff] at hr
  obtain ⟨t', ht', rfl⟩ := hr
  refine ⟨t', ht', hrep, ?_⟩
  rw [← Rep.map_swap_eq h.nodup, avl_map, exchange_bal ht']
  simpa using hbal

end Exchange

/-! ## Specifications -/

section Spec

variable {t : AvlTree ι} {C : TPath ι} {d : Side} {c : Bool} {N : CTree ι} {k : ι}

theorem unlink_links (t : AvlTree ι) (n : ι) (x : Option ι) :
    (t.unlink n x).links = t.links.unlink n x := by
  simp only [unlink, RbTreeNocmp.unlink, links_parent]
  cases hp : (t.heap n).parent with
  | none =>
    simp only
    rw [← setParentOf_links]
    rfl
  | some p =>
    by_cases hl : (t.heap p).left = some n
    · simp [hl]
    · by_cases hr : (t.heap p).right = some n <;> simp [hl, hr]

theorem unlink_bal (t : AvlTree ι) (n : ι) (x : Option ι) : (t.unlink n x).bal = t.bal := by
  rw [unlink]
  split
  · exact setParentOf_bal t none x
  · split_ifs <;> simp

omit [DecidableEq ι] in
theorem descendLeft_eq (t : AvlTree ι) (fuel : ℕ) (n : ι) :
    t.descendLeft fuel n = t.links.descend .left fuel n := by
  induction fuel generalizing n with
  | zero => rfl
  | succ fuel ih =>
    have hchild : (t.links.heap n).child .left = (t.heap n).left := rfl
    cases hleft : (t.heap n).left with
    | none => simp only [descendLeft, RbTreeNocmp.descend, hchild, hleft]
    | some x => simp only [descendLeft, RbTreeNocmp.descend, hchild, hleft, ih x]

/-- A node with one subtree is deleted, and the balances are repaired. -/
theorem deleteOneChild_spec {fuel : ℕ} (h : Rep t.links (C.fill (.mk d c k N .leaf)))
    (hbal : (C.fill (.mk d c k N .leaf)).Avl t.bal)
    (hfuel : (C.fill (.mk d c k N .leaf)).keys.card ≤ fuel) :
    ∃ t' T', t.deleteOneChild fuel k = some t' ∧ Rep t'.links T' ∧ T'.Avl t'.bal ∧
      T'.toList = C.before ++ N.toList ++ C.after := by
  have hlen : C.length ≤ fuel := by
    rw [keys_fill, Multiset.card_add] at hfuel
    exact C.length_le_card.trans (by omega)
  rw [avl_fill, height_mk, avl_mk] at hbal
  obtain ⟨⟨hN, -⟩, hC⟩ := hbal
  obtain ⟨t1, Q, ht1, hrep, havl, hbefore, hafter⟩ := deleteRepair_spec (Q := [])
    (N := .mk d c k N .leaf) (V := N) h (root?_mk ..) hN hC (by simp [add_comm])
    (fun x hx => by simp [hx]) hlen
  have hchild : (if (t1.heap k).right = none then (t1.heap k).left else (t1.heap k).right) =
      N.root? := by
    have hk := hrep.heap_eq
    rw [← links_left, ← links_right, hk]
    cases d with
    | left => simp [mk', Side.pick, root?]
    | right => cases N <;> simp [mk', Side.pick, root?]
  refine ⟨t1.unlink k N.root?, Q.fill N, ?_, ?_, ?_, ?_⟩
  · rw [deleteOneChild, parent_eq h (root?_mk ..), ht1]
    simp [hchild]
  · rw [unlink_links]
    exact hrep.unlink.1
  · rwa [unlink_bal]
  · rw [toList_fill, hbefore, hafter]
    rfl

/-- Deleting a node of an AVL tree leaves an AVL tree without the node. -/
theorem delete_spec {T : CTree ι} {fuel : ℕ} (h : Rep t.links T) (hbal : T.Avl t.bal)
    (hk : k ∈ T.keys) (hfuel : T.keys.card ≤ fuel) :
    ∃ t' T', t.delete fuel k = some t' ∧ Rep t'.links T' ∧ T'.Avl t'.bal ∧
      T'.toList = T.toList.erase k := by
  obtain ⟨C, b, l, r, rfl⟩ := exists_fill_of_mem hk
  have hheap : t.links.heap k = ⟨b, l.root?, r.root?, C.parent?⟩ := Rep.heap_eq (d := .left) h
  have hl' : (t.heap k).left = l.root? := by rw [← links_left, hheap]
  have hr' : (t.heap k).right = r.root? := by rw [← links_right, hheap]
  rw [toList_fill_erase h.nodup]
  by_cases hl : l = .leaf
  · subst hl
    obtain ⟨t', T', ht', h', hbal', hlist⟩ := deleteOneChild_spec (d := .right) h hbal hfuel
    exact ⟨t', T', by simpa [delete, hl', root?] using ht', h', hbal', hlist⟩
  by_cases hr : r = .leaf
  · subst hr
    obtain ⟨t', T', ht', h', hbal', hlist⟩ := deleteOneChild_spec (d := .left) h hbal hfuel
    exact ⟨t', T', by simpa [delete, hr', root?] using ht', h', hbal', by
      simpa [toList] using hlist⟩
  -- the first node of the right subtree takes the place of the deleted one
  obtain ⟨m, hm⟩ : ∃ m, l.root? = some m := Option.ne_none_iff_exists'.mp (root?_eq_none.not.mpr hl)
  obtain ⟨n, hn⟩ : ∃ n, r.root? = some n := Option.ne_none_iff_exists'.mp (root?_eq_none.not.mpr hr)
  obtain ⟨P, c2, x, R, rfl, hside, hleft⟩ : ∃ (P : TPath ι) (c2 : Bool) (x : ι) (R : CTree ι),
      r = P.fill (.mk .left c2 x .leaf R) ∧ (∀ f ∈ P, f.side = .left) ∧
        t.links.descend .left fuel n = some x := by
    have hs := h.shape
    rw [shape_fill] at hs
    rw [keys_fill, CTree.keys, Multiset.card_add, Multiset.card_cons, Multiset.card_add] at hfuel
    exact Rep.descend hs.2.2.2 hn (by omega)
  have hfirst : (P.fill (.mk .left c2 x .leaf R)).toList = x :: (R.toList ++ P.after) := by
    rw [toList_fill, before_eq_nil hside, toList_mk_left]
    simp [toList]
  have hnode : Rep t.links (C.fill (.mk .right b k (P.fill (.mk .right c2 x R .leaf)) l)) := h
  obtain ⟨t1, ht1, h1, hbal1⟩ := exchange_spec hnode hbal
  have hswap : (C.fill (.mk .right b x (P.fill (.mk .right c2 k R .leaf)) l)) =
      fill (P ++ ⟨.right, b, x, l⟩ :: C) (.mk .right c2 k R .leaf) := by
    rw [fill_append]
    rfl
  have hcard : (C.fill (.mk .right b x (P.fill (.mk .right c2 k R .leaf)) l)).keys.card ≤ fuel := by
    rw [← Rep.map_swap_eq hnode.nodup, keys_map, Multiset.card_map]
    exact hfuel
  rw [hswap] at h1 hbal1 hcard
  obtain ⟨t', T', ht', h', hbal', hlist⟩ := deleteOneChild_spec h1 hbal1 hcard
  refine ⟨t', T', ?_, h', hbal', ?_⟩
  · simp [delete, hl', hr', hm, hn, descendLeft_eq, hleft, ht1, ht']
  · rw [hlist, hfirst, before_append, after_append, before_eq_nil hside]
    simp [before, after, Side.pick]

end Spec

end AvlTree

end Pptk.Avltree
