import Pptk.Rbtree.Rbtree

/-!
# The red-black tree functions are correct

`Rep t T` says that the nodes of `t` are linked as the tree `T`. Each function of
`rbtree.c` takes a linked tree to the linked tree that the pure repair functions
of the library give, so the in-order sequence is kept and red-black trees stay
red-black trees.

Main result: `Rep.insertRepair_isRb`.

None of them aborts, dereferences a null pointer or runs out of the given fuel.
-/

namespace Pptk.Rbtree

open Pptk.Lib CTree TPath PNode

variable {ι : Type*} [DecidableEq ι]

/-- The nodes of `t` are linked as the tree `T`. -/
structure Rep (t : RbTreeNocmp ι) (T : CTree ι) : Prop where
  root : t.root = T.root?
  shape : Shape t.heap none T
  nodup : T.keys.Nodup

instance Rep.decidable (t : RbTreeNocmp ι) (T : CTree ι) : Decidable (Rep t T) :=
  decidable_of_iff (t.root = T.root? ∧ Shape t.heap none T ∧ T.keys.Nodup)
    ⟨fun h => ⟨h.1, h.2.1, h.2.2⟩, fun h => ⟨h.root, h.shape, h.nodup⟩⟩

namespace RbTreeNocmp

/-! ## Rotations -/

/-- The link above a rotation. -/
theorem rotateLink_spec (t : RbTreeNocmp ι) (parent : Option ι) (p q : ι)
    (hu : ∀ u, parent = some u → u ≠ q ∧ ((t.heap u).left = some p ∨ (t.heap u).right = some p)) :
    ∃ t', t.rotateLink parent p q = some t' ∧
      t'.root = (if parent = none then some q else t.root) ∧ ∀ k,
      (t'.heap k).black = (t.heap k).black ∧
      (t'.heap k).left =
        (if parent = some k ∧ (t.heap k).left = some p then some q else (t.heap k).left) ∧
      (t'.heap k).right =
        (if parent = some k ∧ (t.heap k).left ≠ some p then some q else (t.heap k).right) ∧
      (t'.heap k).parent = if k = q then parent else (t.heap k).parent := by
  cases parent with
  | none => exact ⟨_, rfl, rfl, fun k => by simp⟩
  | some u =>
    obtain ⟨huq, hlink⟩ := hu u rfl
    by_cases hl : (t.heap u).left = some p
    · exact ⟨_, if_pos hl, rfl, fun k => by simp; grind⟩
    · exact ⟨_, (if_neg hl).trans (if_pos (hlink.resolve_left hl)), rfl, fun k => by simp; grind⟩

variable {t : RbTreeNocmp ι} {p q : ι}

theorem rotateLeft_eq (hr : Rotatable .left t.heap p q) :
    t.rotateLeft p = some ⟨if (t.heap p).parent = none then some q else t.root,
      rotate .left t.heap p q⟩ := by
  obtain ⟨hne, hq, ha, hb, hc, hu⟩ := hr
  simp only [child, Side.pick, Side.other] at hq ha hb hc hu
  obtain ⟨t', ht', hroot, hk⟩ := rotateLink_spec (t.rotateLeftLinks p q)
    (t.heap p).parent p q (by simp [rotateLeftLinks]; grind)
  simp only [rotateLeft, hq, ht', Option.some.injEq]
  refine RbTreeNocmp.ext (by rw [hroot]; simp [rotateLeftLinks]) (funext fun k => ?_)
  obtain ⟨h1, h2, h3, h4⟩ := hk k
  simp only [rotateLeftLinks] at h1 h2 h3 h4
  ext1
  · rw [h1]; simp [rotate, setChild, Side.other]; grind
  · rw [h2]; simp [rotate, child, setChild, Side.other, Side.pick, sideOf]; grind
  · rw [h3]; simp [rotate, child, setChild, Side.other, Side.pick, sideOf]; grind
  · rw [h4]; simp [rotate, child, setChild, Side.other, Side.pick, sideOf]; grind

theorem rotateRight_eq (hr : Rotatable .right t.heap p q) :
    t.rotateRight p = some ⟨if (t.heap p).parent = none then some q else t.root,
      rotate .right t.heap p q⟩ := by
  obtain ⟨hne, hq, ha, hb, hc, hu⟩ := hr
  simp only [child, Side.pick, Side.other] at hq ha hb hc hu
  obtain ⟨t', ht', hroot, hk⟩ := rotateLink_spec (t.rotateRightLinks p q)
    (t.heap p).parent p q (by simp [rotateRightLinks]; grind)
  simp only [rotateRight, hq, ht', Option.some.injEq]
  refine RbTreeNocmp.ext (by rw [hroot]; simp [rotateRightLinks]) (funext fun k => ?_)
  obtain ⟨h1, h2, h3, h4⟩ := hk k
  simp only [rotateRightLinks] at h1 h2 h3 h4
  ext1
  · rw [h1]; simp [rotate, setChild, Side.other]; grind
  · rw [h2]; simp [rotate, child, setChild, Side.other, Side.pick, sideOf]; grind
  · rw [h3]; simp [rotate, child, setChild, Side.other, Side.pick, sideOf]; grind
  · rw [h4]; simp [rotate, child, setChild, Side.other, Side.pick, sideOf]; grind

/-- A rotation of the code is the one of the library. -/
theorem rotateSide_eq {d : Side} (hr : Rotatable d t.heap p q) :
    t.rotateSide d p = some ⟨if (t.heap p).parent = none then some q else t.root,
      rotate d t.heap p q⟩ := by
  cases d with
  | left => exact rotateLeft_eq hr
  | right => exact rotateRight_eq hr

/-! ## Two nodes change places -/

/-- The link to `x` becomes a link to `y`. -/
theorem replaceChild_spec {u : Option ι} {x : ι} (y : ι)
    (hu : ∀ w, u = some w → (t.heap w).left = some x ∨ (t.heap w).right = some x) :
    ∃ t', t.replaceChild u x y = some t' ∧ t'.root = t.root ∧ ∀ z,
      (t'.heap z).black = (t.heap z).black ∧
      (t'.heap z).left =
        (if u = some z ∧ (t.heap z).left = some x then some y else (t.heap z).left) ∧
      (t'.heap z).right =
        (if u = some z ∧ (t.heap z).left ≠ some x then some y else (t.heap z).right) ∧
      (t'.heap z).parent = (t.heap z).parent := by
  cases u with
  | none => exact ⟨t, rfl, rfl, fun z => by simp⟩
  | some w =>
    have hlink := hu w rfl
    by_cases hl : (t.heap w).left = some x
    · exact ⟨_, if_pos hl, rfl, fun z => by simp; grind⟩
    · exact ⟨_, (if_neg hl).trans (if_pos (hlink.resolve_left hl)), rfl, fun z => by simp; grind⟩

/-- The exchange of a node with its child. -/
theorem exchangeChild_spec {d : Side} {S : Multiset ι} {a b : ι} (hl : Linked t.heap S) (ha : a ∈ S)
    (hb : (t.heap a).child d = some b) (hab : (t.heap a).parent ≠ some b) :
    ∃ t', t.exchangeChild d a b = some t' ∧
      t'.root = (if (t.heap a).parent = none then some b else t.root) ∧
      ∀ z ∈ S, t'.heap z = relabel t.heap a b z := by
  obtain ⟨h1, h2, h3⟩ := hl
  obtain ⟨hbS, hbp, hba, hbr⟩ : b ∈ S ∧ (t.heap b).parent = some a ∧ b ≠ a ∧
      (t.heap a).child d.other ≠ some b := by
    cases d with
    | left => exact h1 a ha b hb
    | right => exact h2 a ha b hb
  obtain ⟨t1, ht1, hroot, hz1⟩ := replaceChild_spec (t := t.exchangeChildLinks d a b)
    (u := (t.heap a).parent) (x := a) b (by
      intro u hu
      obtain ⟨h4, h5⟩ := h3 a ha u hu
      cases d <;> simp [exchangeChildLinks, Side.pick] <;> grind)
  simp only [exchangeChild, ht1, Option.bind_eq_bind, Option.bind_some]
  refine ⟨_, rfl, by simp [hroot, exchangeChildLinks], fun z hz => ?_⟩
  obtain ⟨h4, h5, h6, h7⟩ := hz1 z
  simp only [exchangeChildLinks, setParentOf_left, setParentOf_right, setParentOf_parent,
    setParentOf_black, setParent_left, setParent_right, setParent_parent, setParent_black,
    setLeft_left, setLeft_right, setLeft_parent, setLeft_black, setRight_left, setRight_right,
    setRight_parent, setRight_black] at h4 h5 h6 h7
  simp only [relabel, map_swap, Equiv.swap_apply_def]
  clear ht1 hz1 hroot
  cases d <;> simp only [Side.pick, child, Side.other] at * <;> ext1
  all_goals
    simp [h4, h5, h6, h7]
    grind

/-- The exchange of two nodes that are not parent and child or siblings. -/
theorem exchangeApart_spec {S : Multiset ι} {a b : ι} (hl : Linked t.heap S) (ha : a ∈ S)
    (hb : b ∈ S) (hab : a ≠ b) (hpa : (t.heap a).parent ≠ some b) (hpb : (t.heap b).parent ≠ some a)
    (hpar : (t.heap a).parent ≠ (t.heap b).parent) (hbn : (t.heap b).parent ≠ none) :
    ∃ t', t.exchangeApart a b = some t' ∧
      t'.root = (if (t.heap a).parent = none then some b else t.root) ∧
      ∀ z ∈ S, t'.heap z = relabel t.heap a b z := by
  obtain ⟨h1, h2, h3⟩ := hl
  obtain ⟨t1, ht1, hroot1, hz1⟩ := replaceChild_spec (t := t) (u := (t.heap a).parent) b
    fun w hw => (h3 a ha w hw).2
  obtain ⟨t2, ht2, hroot2, hz2⟩ := replaceChild_spec (t := t1) (u := (t.heap b).parent) (x := b) a
    fun w hw => by
      obtain ⟨h4, h5⟩ := h3 b hb w hw
      obtain ⟨h6, h7, h8, h9⟩ := hz1 w
      grind
  have hpar1 : ((t2.exchangeLinks a b (t.heap a) (t.heap b)).heap a).parent =
    (t.heap b).parent := by
    simp [exchangeLinks]; grind
  have hpar2 : ((t2.exchangeLinks a b (t.heap a) (t.heap b)).heap b).parent =
    (t.heap a).parent := by
    simp [exchangeLinks]; grind
  simp only [exchangeApart, Option.bind_eq_bind, ht1, ht2, Option.bind_some, hpar1, hpar2, hbn,
    false_and, if_false]
  refine ⟨_, rfl, by simp [hroot1, hroot2, exchangeLinks], fun z hz => ?_⟩
  obtain ⟨h4, h5, h6, h7⟩ := hz1 z
  obtain ⟨h4', h5', h6', h7'⟩ := hz2 z
  simp only [relabel, map_swap, Equiv.swap_apply_def]
  clear ht1 hz1 hroot1 ht2 hz2 hroot2 hpar1 hpar2
  ext1
  · simp [exchangeLinks]; grind
  · simp [exchangeLinks]; grind
  · simp [exchangeLinks]; grind
  · simp [exchangeLinks]; grind

end RbTreeNocmp

namespace Rep

variable {t : RbTreeNocmp ι} {C : TPath ι} {d : Side} {c : Bool} {k : ι} {near far : CTree ι}

omit [DecidableEq ι] in
theorem of_shape {t' : RbTreeNocmp ι} {T T' : CTree ι} (h : Rep t T) (hroot : t'.root = T'.root?)
    (hs : Shape t'.heap none T') (hk : T'.keys = T.keys) : Rep t' T' :=
  ⟨hroot, hs, by rw [hk]; exact h.nodup⟩

omit [DecidableEq ι] in
/-- A heap represents at most one tree. -/
theorem unique {T T' : CTree ι} (h : Rep t T) (h' : Rep t T') : T = T' :=
  h.shape.unique h'.shape (h.root.symm.trans h'.root)

omit [DecidableEq ι] in
theorem congr {t' : RbTreeNocmp ι} {T : CTree ι} (h : Rep t T) (hroot : t'.root = t.root)
    (hheap : ∀ k ∈ T.keys, t'.heap k = t.heap k) : Rep t' T :=
  ⟨hroot.trans h.root, h.shape.congr hheap, h.nodup⟩

theorem setIsBlack (h : Rep t (C.fill (.mk d c k near far))) (b : Bool) :
    Rep (t.setIsBlack k b) (C.fill (.mk d b k near far)) := by
  refine h.of_shape ?_ (shape_paint h.shape h.nodup b) (by simp)
  rw [RbTreeNocmp.setIsBlack_root, h.root]
  exact root?_fill_congr C (by simp)

variable {c' : Bool} {q : ι} {a e : CTree ι} {fuel : ℕ}

theorem setIsBlack_near {e : Side} {x : ι} {u v : CTree ι}
    (h : Rep t (C.fill (.mk d c k (.mk e c' x u v) far))) (b : Bool) :
    Rep (t.setIsBlack x b) (C.fill (.mk d c k (.mk e b x u v) far)) :=
  setIsBlack (C := ⟨d, c, k, far⟩ :: C) h b

theorem setIsBlack_far {e : Side} {x : ι} {u v : CTree ι}
    (h : Rep t (C.fill (.mk d c k near (.mk e c' x u v)))) (b : Bool) :
    Rep (t.setIsBlack x b) (C.fill (.mk d c k near (.mk e b x u v))) := by
  rw [← mk_other] at h ⊢
  exact h.setIsBlack_near b

/-- A rotated heap represents the rotated tree. -/
theorem rotate {p : ι} {b : CTree ι} (h : Rep t (C.fill (.mk d c p a (.mk d c' q b e)))) :
    Rep ⟨if (t.heap p).parent = none then some q else t.root, Lib.rotate d t.heap p q⟩
      (C.fill (.mk d c' q (.mk d c p a b) e)) := by
  refine h.of_shape ?_ (shape_rotate h.shape h.nodup) ?_
  · have hp := h.shape
    rw [shape_fill, shape_mk] at hp
    rw [hp.2.1, parent_mk']
    cases C with
    | nil => simp [parent?]
    | cons f up =>
      rw [if_neg (by simp [parent?]), h.root]
      exact root?_fill_congr up (by simp)
  · simp only [keys_fill, keys_mk, Multiset.cons_add, Multiset.add_cons]
    rw [Multiset.cons_swap, add_assoc]

theorem rotateSide {p : ι} {b : CTree ι} (h : Rep t (C.fill (.mk d c p a (.mk d c' q b e)))) :
    ∃ t', t.rotateSide d p = some t' ∧ Rep t' (C.fill (.mk d c' q (.mk d c p a b) e)) :=
  ⟨_, RbTreeNocmp.rotateSide_eq (rotatable_of_shape h.shape h.nodup), h.rotate⟩

theorem rotateSide_other {p : ι} {b : CTree ι} (h : Rep t (C.fill (.mk d c p (.mk d c' q a b) e))) :
    ∃ t', t.rotateSide d.other p = some t' ∧ Rep t' (C.fill (.mk d c' q a (.mk d c p b e))) := by
  have h' : Rep t (C.fill (.mk d.other c p e (.mk d.other c' q b a))) := by
    rw [mk_other, mk_other]
    exact h
  obtain ⟨t', ht', h'⟩ := h'.rotateSide
  rw [mk_other, mk_other] at h'
  exact ⟨t', ht', h'⟩

omit [DecidableEq ι] in
theorem heap_eq (h : Rep t (C.fill (.mk d c k near far))) :
    t.heap k = mk' d c near.root? far.root? C.parent? := by
  have hs := h.shape
  rw [shape_fill, shape_mk] at hs
  exact hs.2.1

omit [DecidableEq ι] in
theorem isRed_eq {T : CTree ι} (h : Rep t (C.fill T)) : t.isRed T.root? = T.isRed := by
  cases T with
  | leaf => rfl
  | node b l k r =>
    have hk := heap_eq (d := .left) h
    simp [RbTreeNocmp.isRed, root?, CTree.isRed, hk, mk']

theorem siblingParent_eq (h : Rep t (C.fill (.mk d c k near far))) :
    t.siblingParent near.root? (some k) = far.root? := by
  rw [RbTreeNocmp.siblingParent, h.heap_eq]
  cases d with
  | left => simp [mk', Side.pick]
  | right =>
    simp only [mk', Side.pick]
    exact ite_eq_right_iff.mpr id

omit [DecidableEq ι] in
theorem child_eq_iff (h : Rep t (C.fill (.mk d c k near far))) (hne : near.root? ≠ far.root?)
    (e : Side) : (t.heap k).child e = near.root? ↔ d = e := by
  rw [h.heap_eq]
  by_cases he : d = e
  · subst he
    simp
  · obtain rfl : e = d.other := Side.eq_other_of_ne (Ne.symm he)
    rw [child_other_mk']
    exact iff_of_false (Ne.symm hne) he

omit [DecidableEq ι] in
/-- Two subtrees of a node have different roots, unless both are missing. -/
theorem root?_ne (h : Rep t (C.fill (.mk d c k near far))) (hne : near ≠ .leaf ∨ far ≠ .leaf) :
    near.root? ≠ far.root? := by
  have hnd := h.nodup
  simp only [keys_fill, keys_mk, Multiset.nodup_add, Multiset.nodup_cons,
    Multiset.disjoint_left] at hnd
  obtain ⟨_, ⟨_, _, _, hdis⟩, _⟩ := hnd
  intro he
  cases hr : far.root? with
  | none => rw [hr] at he; exact hne.elim (· (root?_eq_none.mp he)) (· (root?_eq_none.mp hr))
  | some x => exact hdis (mem_keys_of_root? (he.trans hr)) (mem_keys_of_root? hr)

/-! ## Insertion -/

section Insert

variable {f g : Frame ι} {up : TPath ι} {b : Bool} {l r : CTree ι} {p : ι} {s : CTree ι}

/-- `node` is the child on side `e.other` of the child on side `e` of the grandparent exactly when
the path turns there. -/
theorem any_child_eq (h : Rep t (fill (f :: g :: up) (.node b l k r))) (e : Side) :
    (((t.heap g.key).child e).any fun x => (t.heap x).child e.other = some k) =
      decide (g.side = e ∧ f.side = e.other) := by
  have hg : ∀ e, (t.heap g.key).child e = some f.key ↔ g.side = e := by
    have hup : Rep t (up.fill (.mk g.side g.black g.key (f.fill (.node b l k r)) g.sib)) := h
    have := hup.child_eq_iff (root?_ne hup (.inl (mk_ne_leaf _ _ _ _ _)))
    simpa using this
  have hf : ∀ e, (t.heap f.key).child e = some k ↔ f.side = e := by
    have hup : Rep t (fill (g :: up) (.mk f.side f.black f.key (.node b l k r) f.sib)) := h
    exact hup.child_eq_iff (root?_ne hup (.inl (by simp)))
  have hpar : (t.heap k).parent = some f.key := by
    rw [heap_eq (d := .left) h, parent_mk']
    rfl
  rw [Bool.eq_iff_iff, Option.any_eq_true, decide_eq_true_iff]
  constructor
  · rintro ⟨x, hx, hk⟩
    rw [decide_eq_true_iff] at hk
    have hgk : g.key ∈ (TPath.fill (f :: g :: up) (.node b l k r)).keys := by simp [TPath.keys]
    obtain ⟨hxk, _⟩ := h.shape.parent_of_child hgk hx
    obtain ⟨_, hkp⟩ := h.shape.parent_of_child hxk hk
    obtain rfl : f.key = x := by simpa [hpar] using hkp
    exact ⟨(hg e).mp hx, (hf e.other).mp hk⟩
  · rintro ⟨h1, h2⟩
    exact ⟨f.key, (hg e).mpr h1, decide_eq_true ((hf e.other).mpr h2)⟩

theorem insertRotateOuter {cg cp : Bool} {n gk : ι} {N gs : CTree ι}
    (h : Rep t (C.fill (.mk d cg gk (.mk d cp p N s) gs))) (hn : N.root? = some n) :
    ∃ t', t.insertRotateOuter n = some t' ∧
      Rep t' (C.fill (.mk d true p N (.mk d false gk s gs))) := by
  have hp : Rep t (fill (⟨d, cg, gk, gs⟩ :: C) (.mk d cp p N s)) := h
  have hN : N ≠ .leaf := by
    rintro rfl
    simp [root?] at hn
  have hpn : (t.heap n).parent = some p := by
    have hs : Shape t.heap none (fill (⟨d, cp, p, s⟩ :: ⟨d, cg, gk, gs⟩ :: C) N) := h.shape
    rw [shape_fill] at hs
    exact hs.2.parent_of_root hn
  have hpg : (t.heap p).parent = some gk := by
    rw [hp.heap_eq, parent_mk']
    rfl
  have hleft : some n = (t.heap p).left ↔ d = .left := by
    have := hp.child_eq_iff (hp.root?_ne (.inl hN)) .left
    rw [hn] at this
    rw [← this]
    exact eq_comm
  obtain ⟨t', ht', h'⟩ := h.rotateSide_other
  refine ⟨(t'.setIsBlack p true).setIsBlack gk false, ?_, ?_⟩
  · have hrot : (if some n = (t.heap p).left then t.rotateRight gk else t.rotateLeft gk) =
        some t' := by
      rw [← ht']
      cases d with
      | left => rw [if_pos (hleft.mpr rfl)]; rfl
      | right => rw [if_neg fun hl => by simpa using hleft.mp hl]; rfl
    simp [RbTreeNocmp.insertRotateOuter, hpn, hpg, hrot]
  · exact (h'.setIsBlack true).setIsBlack_far false

theorem insertRotateInner (h : Rep t (fill (f :: g :: up) (.node b l k r)))
    (hs : f.side = g.side.other) :
    ∃ t', t.insertRotateInner k f.key g.key = some (t', f.key) ∧
      Rep t' (fill (g :: up) (.mk g.side b k (.mk g.side f.black f.key f.sib
        (g.side.pick l r)) (g.side.pick r l))) := by
  have hleft := h.any_child_eq .left
  have hright := h.any_child_eq .right
  have hrot : Rep t (fill (g :: up) (.mk g.side f.black f.key f.sib
      (.mk g.side b k (g.side.pick l r) (g.side.pick r l)))) := by
    rw [fill_cons, Frame.fill, hs, mk_other, eq_mk g.side] at h
    exact h
  obtain ⟨t', ht', h'⟩ := hrot.rotateSide
  have hk : (t'.heap k).child g.side = some f.key := by rw [h'.heap_eq, child_mk', root?_mk]
  refine ⟨t', ?_, h'⟩
  rw [RbTreeNocmp.insertRotateInner]
  cases hg : g.side with
  | left =>
    rw [hg] at hs ht' hk
    simp only [hg, hs, Side.other, and_self, decide_true] at hleft
    refine (if_pos hleft).trans ?_
    simp only [RbTreeNocmp.rotateSide] at ht'
    simp only [child, Side.pick] at hk
    simp [ht', hk]
  | right =>
    rw [hg] at hs ht' hk
    simp only [hg, hs, Side.other, reduceCtorEq, and_self, decide_true,
      decide_false] at hleft hright
    rw [← Bool.not_eq_true] at hleft
    refine (if_neg hleft).trans ((if_pos hright).trans ?_)
    simp only [RbTreeNocmp.rotateSide] at ht'
    simp only [child, Side.pick] at hk
    simp [ht', hk]

theorem insertRotateInner_straight (h : Rep t (fill (f :: g :: up) (.node b l k r)))
    (hs : f.side = g.side) : t.insertRotateInner k f.key g.key = some (t, k) := by
  have hturn : ∀ e, decide (g.side = e ∧ f.side = e.other) = false := by
    intro e
    rw [hs]
    cases e <;> cases g.side <;> rfl
  have hleft := (h.any_child_eq .left).trans (hturn .left)
  have hright := (h.any_child_eq .right).trans (hturn .right)
  rw [← Bool.not_eq_true] at hleft hright
  exact (if_neg hleft).trans (if_neg hright)

theorem uncle_eq (h : Rep t (fill (f :: g :: up) (.node b l k r))) : t.uncle k = g.sib.root? := by
  have hk : (t.heap k).parent = some f.key := by
    rw [heap_eq (d := .left) h, parent_mk']
    rfl
  have hf : (t.heap f.key).parent = some g.key := by
    rw [heap_eq (C := g :: up) h, parent_mk']
    rfl
  have hsib := siblingParent_eq (C := up) h
  rw [Frame.root?_fill] at hsib
  simp only [RbTreeNocmp.uncle, RbTreeNocmp.sibling, hk, hf, hsib]

omit [DecidableEq ι] in
theorem parent_eq (h : Rep t (fill (f :: up) (.node b l k r))) :
    (t.heap k).parent = some f.key := by
  rw [heap_eq (d := .left) h, parent_mk']
  rfl

omit [DecidableEq ι] in
theorem black_eq {T : CTree ι} (h : Rep t (fill (f :: up) T)) : (t.heap f.key).black = f.black := by
  rw [heap_eq (C := up) h, black_mk']

/-- The rotations after an insertion, when the uncle is black. -/
theorem insertRotate (h : Rep t (fill (f :: g :: up) (.node false l k r)))
    (hred : ¬f.black = true) :
    ∃ t', t.insertRotate k = some t' ∧ Rep t' (up.fill (if f.side = g.side then
        .mk g.side true f.key (.node false l k r) (.mk g.side false g.key f.sib g.sib)
      else .mk g.side true k (.mk g.side false f.key f.sib (g.side.pick l r))
        (.mk g.side false g.key (g.side.pick r l) g.sib))) := by
  have hk := h.parent_eq
  have hf : (t.heap f.key).parent = some g.key := by
    rw [heap_eq (C := g :: up) h, parent_mk']
    rfl
  split_ifs with hs
  · have hin := h.insertRotateInner_straight hs
    rw [fill_cons, fill_cons, Frame.fill, Frame.fill, hs] at h
    obtain ⟨t', ht', h'⟩ := h.insertRotateOuter rfl
    exact ⟨t', by simp [RbTreeNocmp.insertRotate, hk, hf, hin, ht'], h'⟩
  · obtain ⟨t1, ht1, h1⟩ := h.insertRotateInner (Side.eq_other_of_ne hs)
    rw [fill_cons, Frame.fill, Bool.not_eq_true _ |>.mp hred] at h1
    obtain ⟨t', ht', h'⟩ := h1.insertRotateOuter (root?_mk ..)
    exact ⟨t', by simp [RbTreeNocmp.insertRotate, hk, hf, ht1, ht'], h'⟩

theorem isRed_uncle (h : Rep t (fill (f :: g :: up) (.node b l k r))) :
    t.isRed (t.uncle k) = g.sib.isRed := by
  rw [h.uncle_eq]
  rw [fill_cons, fill_swap] at h
  exact h.isRed_eq

theorem insertRepair_eq_insertRotate {fuel : ℕ}
    (h : Rep t (fill (f :: g :: up) (.node false l k r))) (hf : ¬f.black = true)
    (hg : ¬g.sib.isRed = true) : t.insertRepair (fuel + 1) k = t.insertRotate k := by
  rw [RbTreeNocmp.insertRepair, h.parent_eq]
  simp only [h.black_eq, h.isRed_uncle, if_neg hf, if_neg hg]

/-- The repair after an insertion is `insertFix`. -/
theorem insertRepair {P : TPath ι} {fuel : ℕ} (h : Rep t (P.fill (.node false l k r)))
    (hP : P.topBlack = true) (hfuel : P.length < fuel) :
    ∃ t', t.insertRepair fuel k = some t' ∧ Rep t' (insertFix P l k r) := by
  obtain ⟨fuel, rfl⟩ : ∃ n, fuel = n + 1 := ⟨fuel - 1, by omega⟩
  induction P, l, k, r using insertFix.induct generalizing t fuel with
  | case1 l k r =>
    have hk := heap_eq (d := .left) h
    refine ⟨t.setIsBlack k true, ?_, setIsBlack (d := .left) (C := []) h true⟩
    simp [RbTreeNocmp.insertRepair, hk, mk', parent?]
  | case2 f l k r =>
    have hf : f.black = true := hP
    exact ⟨t, by simp [RbTreeNocmp.insertRepair, h.parent_eq, h.black_eq, hf], h⟩
  | case3 f g up l k r hf =>
    rw [insertFix, if_pos hf]
    exact ⟨t, by simp [RbTreeNocmp.insertRepair, h.parent_eq, h.black_eq, hf], h⟩
  | case4 f g up l k r hf hg ih =>
    rw [insertFix, if_neg hf, if_pos hg]
    rw [Bool.not_eq_true] at hf
    obtain ⟨u, un, uf, hu⟩ := eq_mk_of_isRed g.side hg
    have huncle : t.uncle k = some u := by rw [h.uncle_eq, hu, root?_mk]
    have hred := h.isRed_uncle.trans hg
    rw [huncle] at hred
    have hgk : (t.heap f.key).parent = some g.key := by
      rw [heap_eq (C := g :: up) h, parent_mk']
      rfl
    have hstep : t.insertRepair (fuel + 1) k = (((t.setIsBlack f.key true).setIsBlack u
        true).setIsBlack g.key false).insertRepair fuel g.key := by
      rw [RbTreeNocmp.insertRepair]
      simp [h.parent_eq, h.black_eq, hf, hred, huncle, hgk]
    obtain ⟨fuel, rfl⟩ : ∃ n, fuel = n + 1 := ⟨fuel - 1, by simp at hfuel; omega⟩
    rw [hstep]
    refine ih ?_ (topBlack_tail (topBlack_tail hP)) fuel (by simp at hfuel; omega)
    have h1 := setIsBlack (C := g :: up) h true
    rw [fill_cons, Frame.fill, hu] at h1
    have h2 := (h1.setIsBlack_far true).setIsBlack false
    rw [hu, blacken_mk, ← mk_eq_node]
    exact h2
  | case5 f g up l k r hf hg hs =>
    obtain ⟨t', ht', h'⟩ := h.insertRotate hf
    rw [if_pos hs] at h'
    rw [insertFix, if_neg hf, if_neg hg, if_pos hs]
    exact ⟨t', by rw [h.insertRepair_eq_insertRotate hf hg, ht'], h'⟩
  | case6 f g up l k r hf hg hs =>
    obtain ⟨t', ht', h'⟩ := h.insertRotate hf
    rw [if_neg hs] at h'
    rw [insertFix, if_neg hf, if_neg hg, if_neg hs]
    exact ⟨t', by rw [h.insertRepair_eq_insertRotate hf hg, ht'], h'⟩

end Insert

/-! ## Deletion -/

section Delete

variable {f : Frame ι} {up : TPath ι} {T : CTree ι}

omit [DecidableEq ι] in
theorem far_iff : Rep t (fill (⟨d.other, c, k, near⟩ :: C) far) ↔
    Rep t (C.fill (.mk d c k near far)) := by
  rw [fill_cons, Frame.fill, mk_other]

variable {x : ι} {fb : Bool} {fk : ι} {P : TPath ι} {a b : ι} {c1 c2 : Bool} {L R : CTree ι}

theorem deleteCase6 {b : Bool} (h : Rep t (fill (⟨d, fb, fk, .mk d b x near far⟩ :: up) T))
    (hfar : far ≠ .leaf) :
    ∃ t', t.deleteCase6 T.root? fk = some t' ∧
      Rep t' (Lib.deleteCase6 true ⟨d, fb, fk, .mk d b x near far⟩ up T) := by
  obtain ⟨c', z, u, v, rfl⟩ := exists_mk d hfar
  rw [deleteCase6_mk, blacken_mk]
  change Rep t (up.fill (.mk d fb fk T (.mk d b x near (.mk d c' z u v)))) at h
  have hsib := h.siblingParent_eq
  have h1 := h.setIsBlack_far fb
  have h2 := h1.setIsBlack true
  have h3 := far_iff.mp ((far_iff.mpr h2).setIsBlack_far true)
  obtain ⟨t', ht', h'⟩ := h3.rotateSide
  refine ⟨t', ?_, h'⟩
  have hblack : (t.heap fk).black = fb := by rw [h.heap_eq, black_mk']
  have hz := (far_iff.mpr h2).heap_eq
  have hleft := h2.child_eq_iff (h2.root?_ne (.inr (mk_ne_leaf _ _ _ _ _))) .left
  rw [root?_mk] at hsib
  simp only [RbTreeNocmp.deleteCase6, hsib, hblack, Option.bind_eq_bind, Option.bind_some]
  cases d with
  | left =>
    refine (if_pos (hleft.mpr rfl).symm).trans ?_
    rw [hz]
    simpa [mk', Side.pick, RbTreeNocmp.rotateSide] using ht'
  | right =>
    refine (if_neg fun he => by simpa using hleft.mp he.symm).trans ?_
    rw [hz]
    simpa [mk', Side.pick, RbTreeNocmp.rotateSide] using ht'

theorem deleteRotate5 (h : Rep t (fill (f :: up) T)) (hs : f.sib ≠ .leaf) :
    ∃ t', t.deleteRotate5 T.root? f.key = some t' ∧ Rep t' (fill (Lib.deleteCase5 f :: up) T) := by
  obtain ⟨d, fb, fk, sib⟩ := f
  obtain ⟨b, x, near, far, rfl⟩ := exists_mk d hs
  change Rep t (up.fill (.mk d fb fk T (.mk d b x near far))) at h
  have hsib := h.siblingParent_eq
  rw [root?_mk] at hsib
  have hx := (far_iff.mpr h).heap_eq
  have hnear : t.isRed near.root? = near.isRed :=
    isRed_eq (C := ⟨d, b, x, far⟩ :: ⟨d.other, fb, fk, T⟩ :: up) (far_iff.mpr h)
  have hfar : t.isRed far.root? = far.isRed := isRed_eq (far_iff.mpr (far_iff.mpr h))
  have hside := h.child_eq_iff (h.root?_ne (.inr (mk_ne_leaf _ _ _ _ _)))
  have hcase : t.deleteRotate5 T.root? fk =
      if b && !far.isRed && near.isRed then
        near.root?.bind fun n => ((t.setIsBlack x false).setIsBlack n true).rotateSide d.other x
      else some t := by
    have hl : T.root? = (t.heap fk).left ↔ d = .left := by rw [← hside .left]; exact eq_comm
    have hr : T.root? = (t.heap fk).right ↔ d = .right := by rw [← hside .right]; exact eq_comm
    simp only [RbTreeNocmp.deleteRotate5, hsib, hx, Option.bind_eq_bind, Option.bind_some, hl, hr]
    cases b with
    | false => cases d <;> simp [mk']
    | true =>
      cases d <;> simp [mk', Side.pick, hnear, hfar, RbTreeNocmp.rotateSide, Side.other]
  rw [hcase]
  split_ifs with hc
  · simp only [Bool.and_eq_true, Bool.not_eq_true'] at hc
    obtain ⟨⟨rfl, hfr⟩, hnr⟩ := hc
    obtain ⟨n, nn, nf, rfl⟩ := eq_mk_of_isRed d hnr
    rw [deleteCase5_rotates _ _ _ _ _ _ _ _ hfr, root?_mk, Option.bind_some]
    have h1 := ((far_iff.mpr h).setIsBlack false).setIsBlack_near true
    obtain ⟨t', ht', h'⟩ := h1.rotateSide_other
    exact ⟨t', ht', far_iff.mp h'⟩
  · refine ⟨t, rfl, ?_⟩
    rw [deleteCase5_keeps]
    · exact h
    · simp only [Bool.and_eq_true, Bool.not_eq_true', not_and, Bool.not_eq_true] at hc
      cases b <;> cases hf : far.isRed <;> simp_all

/-- What cases 3 and 4 read: the sibling, and the colours around it. -/
theorem sibling_reads {b : Bool} (h : Rep t (up.fill (.mk d fb fk T (.mk d b x near far)))) :
    t.siblingParent T.root? (some fk) = some x ∧ (t.heap fk).black = fb ∧ (t.heap x).black = b ∧
      (!t.isRed (t.heap x).left && !t.isRed (t.heap x).right) = !(near.isRed || far.isRed) := by
  have hx := (far_iff.mpr h).heap_eq
  have hnear : t.isRed near.root? = near.isRed :=
    isRed_eq (C := ⟨d, b, x, far⟩ :: ⟨d.other, fb, fk, T⟩ :: up) (far_iff.mpr h)
  have hfar : t.isRed far.root? = far.isRed := isRed_eq (far_iff.mpr (far_iff.mpr h))
  refine ⟨by rw [h.siblingParent_eq, root?_mk], by rw [h.heap_eq, black_mk'],
    by rw [hx, black_mk'], ?_⟩
  rw [hx, Bool.not_or]
  cases d with
  | left => simp [mk', Side.pick, hnear, hfar]
  | right => simp [mk', Side.pick, hnear, hfar, Bool.and_comm]

theorem deleteCase4 (h : Rep t (fill (f :: up) T)) (hs : f.sib ≠ .leaf) (hsr : f.sib.isRed = false)
    (hc : f.black = false ∨ f.sib.hasRedChild = true) :
    ∃ t', t.deleteCase4 T.root? f.key = some t' ∧ Rep t' (Lib.deleteCase4 true f up T) := by
  obtain ⟨d, fb, fk, sib⟩ := f
  obtain ⟨b, x, near, far, rfl⟩ := exists_mk d hs
  obtain rfl : b = true := by simpa using hsr
  obtain ⟨hsib, hfk, hx, hred⟩ := sibling_reads h
  simp only [RbTreeNocmp.deleteCase4, Lib.deleteCase4, hsib, hfk, hx, hsr, Option.bind_eq_bind,
    Option.bind_some, Bool.and_assoc, hred, hasRedChild_mk, Bool.not_false]
  split_ifs with h4
  · rw [redden_mk]
    exact ⟨_, rfl, (h.setIsBlack_far false).setIsBlack true⟩
  · have hrc : (near.isRed || far.isRed) = true := by
      simp only [hasRedChild_mk] at hc
      cases hn : near.isRed <;> cases fb <;> simp_all
    obtain ⟨t1, ht1, h1⟩ := h.deleteRotate5 hs
    obtain ⟨s', near', far', he, hfar⟩ := deleteCase5_far_red fb d fk x hrc
    rw [he] at h1 ⊢
    obtain ⟨t', ht', h'⟩ := h1.deleteCase6 (by rintro rfl; simp [CTree.isRed] at hfar)
    exact ⟨t', by simp [RbTreeNocmp.deleteCase5, ht1, ht'], h'⟩

theorem deleteCase3_eq {b : Bool}
    (case1 : RbTreeNocmp ι → Option ι → Option ι → Option (RbTreeNocmp ι))
    (h : Rep t (up.fill (.mk d fb fk T (.mk d b x near far)))) :
    t.deleteCase3 case1 T.root? fk =
      if fb && b && !(near.isRed || far.isRed) then
        case1 (t.setIsBlack x false) (some fk) up.parent?
      else t.deleteCase4 T.root? fk := by
  obtain ⟨hsib, hfk, hx, hred⟩ := h.sibling_reads
  have hpar : (t.heap fk).parent = up.parent? := by rw [h.heap_eq, parent_mk']
  simp only [RbTreeNocmp.deleteCase3, hsib, hfk, hx, hpar, Option.bind_eq_bind, Option.bind_some,
    Bool.and_assoc, hred]

theorem deleteRotate2 (h : Rep t (up.fill (.mk d fb fk T (.mk d false x near far)))) :
    ∃ t', t.deleteRotate2 T.root? fk = some t' ∧
      Rep t' (up.fill (.mk d true x (.mk d false fk T near) far)) := by
  obtain ⟨hsib, hfk, hx, hred⟩ := h.sibling_reads
  have h1 := (h.setIsBlack false).setIsBlack_far true
  obtain ⟨t', ht', h'⟩ := h1.rotateSide
  refine ⟨t', ?_, h'⟩
  have hleft := h1.child_eq_iff (h1.root?_ne (.inr (mk_ne_leaf _ _ _ _ _))) .left
  simp only [RbTreeNocmp.deleteRotate2, hsib, hx, Bool.false_eq_true, if_false]
  cases d with
  | left => exact (if_pos (hleft.mpr rfl).symm).trans ht'
  | right => exact (if_neg fun he => by simpa using hleft.mp he.symm).trans ht'

/-- The repair after a deletion is `deleteFix`. -/
theorem deleteCase1 {n fuel : ℕ} (h : Rep t (P.fill T)) (hP : P.PathRb (n + 1)) (hT : Rb n T)
    (hfuel : P.length < fuel) :
    ∃ t', t.deleteCase1 fuel T.root? P.parent? = some t' ∧ Rep t' (deleteFix true P T) := by
  induction P generalizing T t n fuel with
  | nil =>
    obtain ⟨fuel, rfl⟩ : ∃ m, fuel = m + 1 := ⟨fuel - 1, by simp at hfuel; omega⟩
    exact ⟨t, rfl, h⟩
  | cons f up ih =>
    obtain ⟨fuel, rfl⟩ : ∃ m, fuel = m + 1 := ⟨fuel - 1, by simp at hfuel; omega⟩
    obtain ⟨d, fb, fk, sib⟩ := f
    have hsib := hP.1
    cases hs : sib.isRed with
    | true =>
      obtain ⟨x, near, far, rfl, ⟨hnr, _⟩, hn, _⟩ := Rb.exists_mk_red d hsib hs
      obtain ⟨t1, ht1, h1⟩ := h.deleteRotate2
      have h1' : Rep t1 (fill (⟨d, false, fk, near⟩ :: ⟨d, true, x, far⟩ :: up) T) := h1
      obtain ⟨t', ht', h'⟩ := h1'.deleteCase4 hn.ne_leaf hnr (.inl rfl)
      obtain ⟨y, nn, nf, rfl, _⟩ := hn.exists_mk_black d hnr
      rw [deleteFix_cons_red]
      refine ⟨t', ?_, h'⟩
      have hup : Rep t1 (fill (⟨d, true, x, far⟩ :: up)
          (.mk d false fk T (.mk d true y nn nf))) := h1'
      have h3 := deleteCase3_eq (RbTreeNocmp.deleteCase1 fuel) hup
      simp only [Bool.false_and, Bool.false_eq_true, if_false] at h3
      simp only [RbTreeNocmp.deleteCase1, parent?, RbTreeNocmp.deleteCase2, ht1,
        Option.bind_eq_bind, Option.bind_some, h3]
      exact ht'
    | false =>
      obtain ⟨x, near, far, rfl, hn, hf⟩ := Rb.exists_mk_black d hsib hs
      have h2 : t.deleteRotate2 T.root? fk = some t := by
        obtain ⟨h1, _, h2, _⟩ := sibling_reads h
        simp [RbTreeNocmp.deleteRotate2, h1, h2]
      have h3 := deleteCase3_eq (RbTreeNocmp.deleteCase1 fuel) h
      simp only [RbTreeNocmp.deleteCase1, parent?, RbTreeNocmp.deleteCase2, h2,
        Option.bind_eq_bind, Option.bind_some, h3]
      rw [deleteFix_cons_black true up T hs]
      simp only [hasRedChild_mk, Bool.and_true]
      split_ifs with hc
      · -- the sibling becomes red and the parent's subtree is now one short
        simp only [Bool.and_eq_true, Bool.not_eq_true', Bool.or_eq_false_iff] at hc
        obtain ⟨rfl, hnr, hfr⟩ := hc
        rw [redden_mk]
        have hT' : Rb (n + 1) (.mk d true fk T (.mk d false x near far)) :=
          (rb_succ_mk_black ..).mpr ⟨hT, (rb_mk_red ..).mpr ⟨⟨hnr, hfr⟩, hn, hf⟩⟩
        have h4 := ih (setIsBlack_far h false) hP.2 hT' (by simp at hfuel; omega)
        rw [root?_mk] at h4
        exact h4
      · refine deleteCase4 h (mk_ne_leaf _ _ _ _ _) hs ?_
        rw [hasRedChild_mk]
        cases hnr : near.isRed <;> cases fb <;> simp_all

theorem unlink_eq {y : Option ι}
    (hu : ∀ u, (t.heap k).parent = some u →
      y ≠ some u ∧ ((t.heap u).left = some k ∨ (t.heap u).right = some k)) :
    t.unlink k y = ⟨if (t.heap k).parent = none then y else t.root, splice t.heap k y⟩ := by
  rw [RbTreeNocmp.unlink]
  cases hpar : (t.heap k).parent with
  | none =>
    refine RbTreeNocmp.ext rfl (funext fun z => ?_)
    ext1 <;> simp [splice, hpar] <;> grind
  | some u =>
    obtain ⟨hyu, hlink⟩ := hu u hpar
    by_cases hl : (t.heap u).left = some k
    · simp only [if_pos hl]
      refine RbTreeNocmp.ext (by simp) (funext fun z => ?_)
      ext1 <;> simp [splice, hpar, sideOf, setChild] <;> grind
    · simp only [if_neg hl, if_pos (hlink.resolve_left hl)]
      refine RbTreeNocmp.ext (by simp) (funext fun z => ?_)
      ext1 <;> simp [splice, hpar, sideOf, setChild] <;> grind

omit [DecidableEq ι] in
theorem splice_reads (h : Rep t (C.fill (.mk d c k T .leaf))) :
    T.root? ≠ some k ∧ (t.heap k).parent ≠ some k ∧ ∀ u, (t.heap k).parent = some u →
      T.root? ≠ some u ∧ ((t.heap u).left = some k ∨ (t.heap u).right = some k) := by
  have hk : (t.heap k).parent = C.parent? := by rw [h.heap_eq, parent_mk']
  have hnd := h.nodup
  simp only [keys_fill, keys_mk, Multiset.nodup_add, Multiset.nodup_cons,
    Multiset.disjoint_left, Multiset.mem_add, Multiset.mem_cons, not_or] at hnd
  obtain ⟨-, ⟨⟨hkT, -⟩, -⟩, hCx⟩ := hnd
  refine ⟨fun he => hkT (mem_keys_of_root? he), ?_, fun u hu => ?_⟩
  · rw [hk]
    exact fun he => (hCx (mem_keys_of_parent? he)).1 rfl
  · refine ⟨fun hr => ?_, (h.shape.linked h.nodup).parent k (by simp) u hu |>.2⟩
    rw [hk] at hu
    exact (hCx (mem_keys_of_parent? hu)).2.1 (mem_keys_of_root? hr)

theorem splice (h : Rep t (C.fill (.mk d c k T .leaf))) :
    Rep ⟨if (t.heap k).parent = none then T.root? else t.root, Lib.splice t.heap k T.root?⟩
      (C.fill T) := by
  have hk : (t.heap k).parent = C.parent? := by rw [h.heap_eq, parent_mk']
  have hnd := h.nodup
  simp only [keys_fill, keys_mk, Multiset.nodup_add, Multiset.nodup_cons,
    Multiset.disjoint_left, Multiset.mem_add, Multiset.mem_cons, not_or] at hnd
  obtain ⟨hndC, ⟨-, hndT, -⟩, hCx⟩ := hnd
  refine ⟨?_, shape_splice h.shape h.nodup, ?_⟩
  · rw [hk]
    cases C with
    | nil => simp [parent?]
    | cons f up =>
      rw [if_neg (by simp [parent?]), h.root]
      exact root?_fill_congr up (by simp)
  · rw [keys_fill, Multiset.nodup_add, Multiset.disjoint_left]
    exact ⟨hndC, hndT, fun hx => (hCx hx).2.1⟩

/-- A node with one subtree is replaced by it. -/
theorem unlink (h : Rep t (C.fill (.mk d c k T .leaf))) :
    Rep (t.unlink k T.root?) (C.fill T) ∧ (t.unlink k T.root?).heap k = t.heap k := by
  obtain ⟨hTk, hpk, hu⟩ := h.splice_reads
  rw [unlink_eq hu]
  refine ⟨h.splice, ?_⟩
  change Lib.splice _ _ _ k = _
  rw [Lib.splice, if_neg hTk, if_neg hpk]

/-- The deletion of a node with one subtree is `removeFix`. -/
theorem deleteOneChild {fuel : ℕ} (h : Rep t (C.fill (.mk d c k T .leaf)))
    (hrb : IsRb (C.fill (.mk d c k T .leaf))) (hfuel : C.length < fuel) :
    ∃ t', t.deleteOneChild fuel k = some t' ∧ Rep t' (removeFix true C c T) := by
  have hk := h.heap_eq
  have hchild : (if (t.heap k).right = none then (t.heap k).left else (t.heap k).right) =
      T.root? := by
    rw [hk]
    cases d with
    | left => simp [mk', Side.pick, root?]
    | right => cases T <;> simp [mk', Side.pick, root?]
  obtain ⟨h1, hk1⟩ := h.unlink
  have hred := h1.isRed_eq
  obtain ⟨n, hC, hn, _⟩ := exists_pathRb hrb
  simp only [RbTreeNocmp.deleteOneChild, hchild]
  simp only [hk1, hk, black_mk', parent_mk', hred, removeFix]
  split_ifs with hc hr
  · obtain ⟨x, u, v, rfl⟩ := eq_mk_of_isRed .left hr
    rw [root?_mk, blacken_mk]
    exact ⟨_, rfl, h1.setIsBlack true⟩
  · subst hc
    cases n with
    | zero => simp [rb_mk_black] at hn
    | succ n => exact deleteCase1 h1 hC ((rb_succ_mk_black ..).mp hn).1 hfuel
  · exact ⟨_, rfl, h1⟩

/-- Swapping a key with one below it. -/
theorem map_swap_eq (hnd : (C.fill (.mk d c1 a (P.fill (.mk d c2 b L .leaf)) R)).keys.Nodup) :
    (C.fill (.mk d c1 a (P.fill (.mk d c2 b L .leaf)) R)).map (Equiv.swap a b) =
      C.fill (.mk d c1 b (P.fill (.mk d c2 a L .leaf)) R) := by
  simp only [TPath.keys_fill, keys_mk, CTree.keys, Multiset.nodup_add, Multiset.nodup_cons,
    Multiset.disjoint_left, Multiset.mem_add, Multiset.mem_cons, not_or] at hnd
  have hfix : ∀ x, x ≠ a → x ≠ b → Equiv.swap a b x = x := fun x =>
    Equiv.swap_apply_of_ne_of_ne
  rw [TPath.map_fill, CTree.map_mk, TPath.map_fill, CTree.map_mk, CTree.map, Equiv.swap_apply_left,
    Equiv.swap_apply_right, TPath.map_eq_self, TPath.map_eq_self, CTree.map_eq_self,
    CTree.map_eq_self]
  all_goals
    intro x hx
    apply hfix <;> rintro rfl <;> grind

theorem relabel {t' : RbTreeNocmp ι}
    (h : Rep t (C.fill (.mk d c1 a (P.fill (.mk d c2 b L .leaf)) R)))
    (hroot : t'.root = if (t.heap a).parent = none then some b else t.root)
    (hheap : ∀ z ∈ (C.fill (.mk d c1 a (P.fill (.mk d c2 b L .leaf)) R)).keys,
      t'.heap z = Lib.relabel t.heap a b z) :
    Rep t' (C.fill (.mk d c1 b (P.fill (.mk d c2 a L .leaf)) R)) := by
  have hmem : a ∈ (C.fill (.mk d c1 a (P.fill (.mk d c2 b L .leaf)) R)).keys ∧
      b ∈ (C.fill (.mk d c1 a (P.fill (.mk d c2 b L .leaf)) R)).keys := by simp
  have hkeys : ∀ k ∈ ((C.fill (.mk d c1 a (P.fill (.mk d c2 b L .leaf)) R)).map
      (Equiv.swap a b)).keys, k ∈ (C.fill (.mk d c1 a (P.fill (.mk d c2 b L .leaf)) R)).keys := by
    intro k hk
    rw [keys_map, Multiset.mem_map] at hk
    obtain ⟨y, hy, rfl⟩ := hk
    rw [Equiv.swap_apply_def]
    split_ifs
    · exact hmem.2
    · exact hmem.1
    · exact hy
  have ha : (t.heap a).parent = C.parent? := by rw [h.heap_eq, parent_mk']
  rw [← map_swap_eq h.nodup]
  refine ⟨?_, (shape_relabel h.shape a b).congr fun k hk => hheap k (hkeys k hk), ?_⟩
  · rw [hroot, ha, map_swap_eq h.nodup]
    cases C with
    | nil => simp [parent?]
    | cons g up =>
      rw [if_neg (by simp [parent?]), h.root]
      exact root?_fill_congr up (by simp)
  · rw [keys_map]
    exact h.nodup.map (Equiv.injective _)

omit [DecidableEq ι] in
theorem exchange_reads (h : Rep t (C.fill (.mk d c1 a (P.fill (.mk d c2 b L .leaf)) R))) :
    a ≠ b ∧ (t.heap a).child d = (P.fill (.mk d c2 b L .leaf)).root? ∧
      (t.heap a).child d.other = R.root? ∧ (t.heap a).parent ≠ some b ∧
      (t.heap b).parent = parent? (P ++ ⟨d, c1, a, R⟩ :: C) ∧
      (∀ f up, P = f :: up → f.key ≠ a ∧ (t.heap a).parent ≠ some f.key) ∧ R.root? ≠ some b := by
  have hnd := h.nodup
  simp only [keys_fill, keys_mk, CTree.keys, Multiset.nodup_add, Multiset.nodup_cons,
    Multiset.disjoint_left, Multiset.mem_add, Multiset.mem_cons, not_or] at hnd
  obtain ⟨-, ⟨⟨⟨haP, hab, -⟩, -⟩, -, -, hLR⟩, hCx⟩ := hnd
  have ha : t.heap a = _ := h.heap_eq
  have hpar : (t.heap a).parent = C.parent? := by rw [ha, parent_mk']
  refine ⟨hab, by rw [ha, child_mk'], by rw [ha, child_other_mk'], ?_, ?_, ?_, ?_⟩
  · rw [hpar]
    exact fun he => (hCx (mem_keys_of_parent? he)).2.1.2.1 rfl
  · have h' : Rep t (fill (P ++ ⟨d, c1, a, R⟩ :: C) (.mk d c2 b L .leaf)) := by
      rw [fill_append]
      exact h
    rw [h'.heap_eq, parent_mk']
  · rintro f up rfl
    refine ⟨fun he => haP (by simp [TPath.keys, he]), ?_⟩
    rw [hpar]
    exact fun he => (hCx (TPath.mem_keys_of_parent? he)).2.1.1 (by simp [TPath.keys])
  · exact fun hR => hLR (.inr (.inl rfl)) (mem_keys_of_root? hR)

/-- `rb_tree_exchange` of a node and the node next to it in its subtree on side `d`. -/
theorem exchange (h : Rep t (C.fill (.mk d c1 a (P.fill (.mk d c2 b L .leaf)) R))) :
    ∃ t', t.exchange a b = some t' ∧
      Rep t' (C.fill (.mk d c1 b (P.fill (.mk d c2 a L .leaf)) R)) := by
  have hlink := h.shape.linked h.nodup
  have hmem : a ∈ (C.fill (.mk d c1 a (P.fill (.mk d c2 b L .leaf)) R)).keys ∧
      b ∈ (C.fill (.mk d c1 a (P.fill (.mk d c2 b L .leaf)) R)).keys := by simp
  obtain ⟨hab, hal, har, hpa, hpb, hP, hRb⟩ := h.exchange_reads
  -- whichever branch is taken, it swaps the two names
  cases P with
  | nil =>
    rw [fill_nil, root?_mk] at hal
    obtain ⟨t', ht', hroot, hheap⟩ := RbTreeNocmp.exchangeChild_spec hlink hmem.1 hal hpa
    refine ⟨t', ?_, h.relabel hroot hheap⟩
    have hpb : (t.heap b).parent = some a := hpb
    rw [RbTreeNocmp.exchange, RbTreeNocmp.exchangeOnce]
    cases d with
    | left => rw [if_pos ⟨hpb, hal⟩, ht']
    | right => rw [if_neg fun hl => hRb (har.symm.trans hl.2), if_pos ⟨hpb, hal⟩, ht']
  | cons f up =>
    obtain ⟨hfa, hfp⟩ := hP f up rfl
    have hpbf : (t.heap b).parent = some f.key := hpb
    obtain ⟨t', ht', hroot, hheap⟩ := RbTreeNocmp.exchangeApart_spec hlink hmem.1 hmem.2 hab hpa
      (by rw [hpbf]; simpa using hfa) (by rw [hpbf]; exact hfp) (by simp [hpbf])
    refine ⟨t', ?_, h.relabel hroot hheap⟩
    rw [RbTreeNocmp.exchange, RbTreeNocmp.exchangeOnce, if_neg, if_neg, if_neg, ht']
    · exact hpa
    · rw [hpbf]; simp [hfa]
    · rw [hpbf]; simp [hfa]

end Delete

/-! ## Specifications -/

omit [DecidableEq ι] in
/-- The descent along one side reaches the last node there. -/
theorem descend {d : Side} {par : Option ι} {T : CTree ι} {n : ι} (hs : Shape t.heap par T)
    (hn : T.root? = some n) (hfuel : T.keys.card ≤ fuel) :
    ∃ (P : TPath ι) (b : Bool) (x : ι) (rest : CTree ι),
      T = P.fill (.mk d b x .leaf rest) ∧ (∀ f ∈ P, f.side = d) ∧ t.descend d fuel n = some x := by
  have hT : T ≠ .leaf := by
    rintro rfl
    simp [root?] at hn
  obtain ⟨b, k, near, far, rfl⟩ := exists_mk d hT
  obtain rfl : k = n := by simpa using hn
  rw [keys_mk, Multiset.card_cons, Multiset.card_add] at hfuel
  induction fuel generalizing b k near far par with
  | zero => omega
  | succ fuel ih =>
    rw [shape_mk] at hs
    obtain ⟨hk, hnear, _⟩ := hs
    have hchild : (t.heap k).child d = near.root? := by rw [hk, child_mk']
    by_cases hl : near = .leaf
    · subst hl
      exact ⟨[], b, k, far, rfl, by simp, by simp [RbTreeNocmp.descend, hchild, root?]⟩
    · obtain ⟨b', k', near', far', rfl⟩ := exists_mk d hl
      rw [root?_mk] at hchild
      rw [keys_mk, Multiset.card_cons, Multiset.card_add] at hfuel
      obtain ⟨P, c, x, rest, he, hP, hx⟩ := ih b' k' near' far' hnear (by omega) hl (root?_mk ..)
      refine ⟨P ++ [⟨d, b, k, far⟩], c, x, rest, ?_, ?_, by simp [RbTreeNocmp.descend, hchild, hx]⟩
      · rw [fill_append, ← he]
        rfl
      · intro f hf
        rcases List.mem_append.mp hf with hf | hf
        · exact hP f hf
        · rw [List.mem_singleton.mp hf]

omit [DecidableEq ι] in
/-- The leftmost node is the first key. -/
theorem leftmost {T : CTree ι} (h : Rep t T) (hfuel : T.keys.card ≤ fuel) :
    t.leftmost fuel = some T.toList.head? := by
  rw [RbTreeNocmp.leftmost, RbTreeNocmp.extreme, h.root]
  cases hroot : T.root? with
  | none => rw [root?_eq_none.mp hroot]; rfl
  | some n =>
    obtain ⟨P, b, x, rest, rfl, hP, hx⟩ := descend (d := .left) h.shape hroot hfuel
    rw [toList_fill, before_eq_nil hP, toList_mk_left]
    simp [hx, toList]

omit [DecidableEq ι] in
/-- The rightmost node is the last in order. -/
theorem rightmost {T : CTree ι} (h : Rep t T) (hfuel : T.keys.card ≤ fuel) :
    t.rightmost fuel = some T.toList.getLast? := by
  rw [RbTreeNocmp.rightmost, RbTreeNocmp.extreme, h.root]
  cases hroot : T.root? with
  | none => rw [root?_eq_none.mp hroot]; rfl
  | some n =>
    obtain ⟨P, b, x, rest, rfl, hP, hx⟩ := descend (d := .right) h.shape hroot hfuel
    rw [toList_fill, after_eq_nil hP, toList_mk_right]
    simp [hx, toList]

/-- A red node hung in at a missing child and repaired: the tree stays a red-black tree and has the
node at that place of the in-order sequence. -/
theorem insertRepair_isRb {P : TPath ι} (h : Rep t (P.fill (.node false .leaf k .leaf)))
    (hrb : IsRb (P.fill .leaf)) (hfuel : P.keys.card < fuel) :
    ∃ t' T', t.insertRepair fuel k = some t' ∧ Rep t' T' ∧ IsRb T' ∧
      T'.toList = P.before ++ k :: P.after := by
  obtain ⟨n, hP, hn, _⟩ := exists_pathRb hrb
  have htop : P.topBlack = true := by
    cases P with
    | nil => rfl
    | cons f up => simpa [isRed_fill_cons] using hrb.1
  obtain ⟨t', ht', h'⟩ := h.insertRepair htop (lt_of_le_of_lt P.length_le_card hfuel)
  refine ⟨t', _, ht', h', isRb_insertFix hP hn hn ⟨rfl, rfl⟩, ?_⟩
  rw [toList_insertFix, toList_fill]
  simp [toList]

theorem insert_empty (cmp : ι → ι → Option ℤ) (h : t.root = none) (hfuel : 0 < fuel) :
    ∃ t', t.insert cmp fuel k = some t' ∧ Rep t' (.node true .leaf k .leaf) := by
  have h1 : Rep ({ ((t.setIsBlack k false).setLeft k none).setRight k none with
      root := some k }.setParent k none) (fill [] (.node false .leaf k .leaf)) := by
    refine ⟨rfl, ⟨?_, trivial, trivial⟩, by simp [CTree.keys]⟩
    ext1 <;> simp [root?]
  obtain ⟨t', ht', h'⟩ := h1.insertRepair rfl hfuel
  exact ⟨t', by simpa [RbTreeNocmp.insert, h] using ht', h'⟩

theorem deleteOneChild_isRb {T : CTree ι} (h : Rep t (C.fill (.mk d c k T .leaf)))
    (hrb : IsRb (C.fill (.mk d c k T .leaf)))
    (hfuel : (C.fill (.mk d c k T .leaf)).keys.card ≤ fuel) :
    ∃ t' T', t.deleteOneChild fuel k = some t' ∧ Rep t' T' ∧ IsRb T' ∧
      T'.toList = C.before ++ T.toList ++ C.after := by
  have hlen := C.length_le_card
  rw [keys_fill, keys_mk, Multiset.card_add, Multiset.card_cons] at hfuel
  obtain ⟨t', ht', h'⟩ := h.deleteOneChild hrb (show C.length < fuel by omega)
  exact ⟨t', _, ht', h', isRb_removeFix hrb, by rw [toList_removeFix, toList_fill]⟩

/-- Deleting a node of a red-black tree leaves a red-black tree without the node. -/
theorem delete {T : CTree ι} (h : Rep t T) (hrb : IsRb T) (hk : k ∈ T.keys)
    (hfuel : T.keys.card ≤ fuel) :
    ∃ t' T', t.delete fuel k = some t' ∧ Rep t' T' ∧ IsRb T' ∧ T'.toList = T.toList.erase k := by
  obtain ⟨C, b, l, r, rfl⟩ := exists_fill_of_mem hk
  have hheap : t.heap k = ⟨b, l.root?, r.root?, C.parent?⟩ := heap_eq (d := .left) h
  rw [toList_fill_erase h.nodup]
  by_cases hl : l = .leaf
  · subst hl
    obtain ⟨t', T', ht', h', hrb', hlist⟩ := deleteOneChild_isRb (d := .right) h hrb hfuel
    exact ⟨t', T', by simpa [RbTreeNocmp.delete, hheap, root?] using ht', h', hrb', hlist⟩
  by_cases hr : r = .leaf
  · subst hr
    obtain ⟨t', T', ht', h', hrb', hlist⟩ := deleteOneChild_isRb (d := .left) h hrb hfuel
    exact ⟨t', T', by simpa [RbTreeNocmp.delete, hheap, root?] using ht', h', hrb', by
      simpa [toList] using hlist⟩
  -- the last node of the left subtree takes the place of the deleted one
  obtain ⟨m, hm⟩ : ∃ m, r.root? = some m := Option.ne_none_iff_exists'.mp (root?_eq_none.not.mpr hr)
  obtain ⟨n, hn⟩ : ∃ n, l.root? = some n := Option.ne_none_iff_exists'.mp (root?_eq_none.not.mpr hl)
  obtain ⟨P, c2, x, L, rfl, hside, hright⟩ : ∃ (P : TPath ι) (c2 : Bool) (x : ι) (L : CTree ι),
      l = P.fill (.mk .right c2 x .leaf L) ∧ (∀ f ∈ P, f.side = .right) ∧
        t.descend .right fuel n = some x := by
    have hs := h.shape
    rw [shape_fill] at hs
    rw [keys_fill, CTree.keys, Multiset.card_add, Multiset.card_cons, Multiset.card_add] at hfuel
    exact descend hs.2.2.1 hn (by omega)
  have hlast : (P.fill (.mk .right c2 x .leaf L)).toList = P.before ++ L.toList ++ [x] := by
    rw [toList_fill, after_eq_nil hside, toList_mk_right]
    simp [toList]
  have hnode : Rep t (C.fill (.mk .left b k (P.fill (.mk .left c2 x L .leaf)) r)) := h
  obtain ⟨t1, ht1, h1⟩ := hnode.exchange
  have hswap : (C.fill (.mk .left b x (P.fill (.mk .left c2 k L .leaf)) r)) =
      fill (P ++ ⟨.left, b, x, r⟩ :: C) (.mk .left c2 k L .leaf) := by
    rw [fill_append]
    rfl
  have hrb1 : IsRb (C.fill (.mk .left b x (P.fill (.mk .left c2 k L .leaf)) r)) := by
    rw [← map_swap_eq hnode.nodup]
    exact hrb.map _
  have hcard : (C.fill (.mk .left b x (P.fill (.mk .left c2 k L .leaf)) r)).keys.card ≤ fuel := by
    rw [← map_swap_eq hnode.nodup, keys_map, Multiset.card_map]
    exact hfuel
  rw [hswap] at h1 hrb1 hcard
  obtain ⟨t', T', ht', h', hrb', hlist⟩ := deleteOneChild_isRb h1 hrb1 hcard
  refine ⟨t', T', ?_, h', hrb', ?_⟩
  · simp [RbTreeNocmp.delete, hheap, hm, hn, hright, ht1, ht']
  · rw [hlist, hlast, ← toList_fill, toList_fill_last hside]

end Rep

end Pptk.Rbtree
