import Pptk.Ipfrag.Rb815.Heap

/-!
# Repairing the tree after an insertion

`rb815_tree_insert_repair` on the descriptors of a search tree with a black root
computes `insertFix`. The comparison of links without their valid bits does no harm:
what is left in an invalid link leads to no node, or to the neighbour on that side,
and neither is the node that is repaired.

Results:
* `Tree815.insertRepair`.
-/

namespace Pptk.Ipfrag

open Pptk.Lib Pptk.Iphdr Pptk.Rbtree TPath Multiset Option

variable {D : ℕ → Prop} {W : ℕ × ℕ → Prop} {A : ℕ → Side → Fin 8192 → Prop} {ctx : Rb815ctx}
  {T : CTree ℕ} {C up : TPath ℕ} {f g : Frame ℕ} {d : Side} {b c : Bool} {k : ℕ}
  {near far l r : CTree ℕ}

/-! ## Reading the neighbours of a node -/

namespace Linked815

theorem parent_ptr (h : Linked815 D ctx (fill (f :: up) T)) (hk : T.root? = some k) :
    (ctx.loadHole k).parent.ptr = some f.key := by
  have hmem : k ∈ (fill (f :: up) T).keys := by
    rw [keys_fill]
    exact mem_add.mpr (.inr (CTree.mem_keys_of_root? hk))
  have hs := h.rep.shape
  rw [shape_fill] at hs
  rw [← Rb815hole.node_parent, h.node_eq hmem]
  exact hs.2.parent_of_root hk

theorem isBlack_eq (h : Linked815 D ctx (C.fill (.mk d c k near far))) :
    (ctx.loadHole k).isBlack = c := by
  rw [← Rb815hole.node_black, h.loadHole_node, PNode.black_mk']

theorem child_ptr (h : Linked815 D ctx (C.fill (.mk d c k near far))) :
    ((ctx.loadHole k).child d).ptr = near.root? := by
  rw [← Rb815hole.node_child, h.loadHole_node, PNode.child_mk']

theorem child_other_ptr (h : Linked815 D ctx (C.fill (.mk d c k near far))) :
    ((ctx.loadHole k).child d.other).ptr = far.root? := by
  rw [← Rb815hole.node_child, h.loadHole_node, PNode.child_other_mk']

theorem pointsTo_iff {x : ℕ} (h : Linked815 D ctx (C.fill (.mk d c k near far)))
    (hx : near.root? = some x) (e : Side) : ((ctx.loadHole k).child e).PointsTo x ↔ d = e := by
  have hne : near.root? ≠ far.root? :=
    h.rep.root?_ne (.inl (by rintro rfl; simp [CTree.root?] at hx))
  rw [Link815.pointsTo_iff, ← hx, ← h.rep.child_eq_iff hne, ← Rb815hole.node_child,
    h.node_eq (by simp)]

theorem getSiblingLocParent {x : ℕ} (h : Linked815 D ctx (C.fill (.mk d c k near far)))
    (hx : near.root? = some x) : ctx.getSiblingLocParent x k = some (far.root?.getD rb815Null) := by
  have hk : IsLoc k := h.isLoc (by simp)
  have hfar : ((ctx.loadHole k).child d.other).loc = far.root?.getD rb815Null := by
    rw [Link815.loc_eq_getD, h.child_other_ptr]
  have hleft := h.pointsTo_iff hx .left
  have hright := h.pointsTo_iff hx .right
  simp only [Rb815hole.child, Side.pick] at hleft hright
  simp only [Rb815ctx.getSiblingLocParent, if_neg hk.ne_null, hleft, hright, ← hfar]
  cases d <;> rfl

/-- The uncle of a node. -/
theorem getUncleLoc (h : Linked815 D ctx (fill (f :: g :: up) (.node b l k r))) :
    ctx.getUncleLoc k = some (g.sib.root?.getD rb815Null) := by
  have hf := h.parent_ptr rfl
  have hg : (ctx.loadHole f.key).parent.ptr = some g.key :=
    parent_ptr (T := f.fill (.node b l k r)) h (by simp)
  have hsib := getSiblingLocParent (C := up) (x := f.key) h (by simp)
  simp only [Rb815ctx.getUncleLoc, Rb815ctx.getSiblingLoc, Link815.valid_eq_false_iff, hf, hg,
    Link815.block_of_ptr hf, Link815.block_of_ptr hg, reduceCtorEq, if_false, hsib]

theorem isRed_iff (h : Linked815 D ctx (C.fill T)) :
    (T.root?.getD rb815Null ≠ rb815Null ∧
      (ctx.loadIf (T.root?.getD rb815Null)).isBlack = false) ↔ T.isRed = true := by
  cases T with
  | leaf => simp [CTree.root?, CTree.isRed]
  | node b l k r =>
    have hk : IsLoc k := h.isLoc (by simp [CTree.keys])
    have hb := isBlack_eq (d := .left) h
    simp only [CTree.root?, getD_some, ne_eq, hk.ne_null, not_false_eq_true, true_and,
      Rb815ctx.loadIf_of_isLoc hk, hb, CTree.isRed, Bool.not_eq_true']

end Linked815

/-! ## Rotations -/

namespace Tree815

theorem loadHole_setIsBlack {i j : ℕ} (hi : IsLoc i) (hj : IsLoc j) (hne : j ≠ i) (b : Bool) :
    (ctx.setIsBlack i b).loadHole j = ctx.loadHole j := by
  rw [Rb815ctx.setIsBlack, Rb815ctx.loadHole_storeHole (.inl hi) hj, if_neg hne]

/-- The outer rotation. -/
theorem insertRotateOuter {cg cp : Bool} {n p gk : ℕ} {N s gs : CTree ℕ}
    (hW : ∀ k, Slot D k → W (k, 8)) (h : Tree815 D A ctx (C.fill (.mk d cg gk (.mk d cp p N s) gs)))
    (hn : N.root? = some n) :
    ∃ ctx', ctx.insertRotateOuter n = some ctx' ∧
      Tree815 D A ctx' (C.fill (.mk d true p N (.mk d false gk s gs))) ∧ TreeStep D W ctx ctx' := by
  have hp : Linked815 D ctx (fill (⟨d, cg, gk, gs⟩ :: C) (.mk d cp p N s)) := h.toLinked815
  have hN : Linked815 D ctx (fill (⟨d, cp, p, s⟩ :: ⟨d, cg, gk, gs⟩ :: C) N) := h.toLinked815
  have hpn : (ctx.loadHole n).parent.ptr = some p := hN.parent_ptr hn
  have hpg : (ctx.loadHole p).parent.ptr = some gk := hp.parent_ptr (by simp)
  have hleft := hp.pointsTo_iff hn .left
  have hne : gk ≠ p := by
    have hnd := h.rep.nodup
    simp only [keys_fill, CTree.keys_mk, nodup_add, nodup_cons, mem_add, mem_cons, not_or] at hnd
    exact hnd.2.1.1.1.1
  have hlp : IsLoc p := h.isLoc (by simp)
  have hlg : IsLoc gk := h.isLoc (by simp)
  obtain ⟨ctx1, hrot, h1, hs1⟩ := h.rotate_other hW
  obtain ⟨h2, hs2⟩ := h1.paint hW true
  obtain ⟨h3, hs3⟩ := h2.paint_far hW false
  refine ⟨_, ?_, h3, (hs1.trans hs2).trans hs3⟩
  have hrot' : (if (ctx.loadHole p).left.PointsTo n then ctx.rotateRight gk
    else ctx.rotateLeft gk) = some ctx1 := by
    rw [← hrot]
    cases d with
    | left => exact if_pos (hleft.mpr rfl)
    | right => exact if_neg fun hl => by simpa using hleft.mp hl
  simp only [Rb815ctx.insertRotateOuter, Link815.valid_eq_false_iff, hpn, hpg,
    Link815.block_of_ptr hpn, Link815.block_of_ptr hpg, reduceCtorEq, if_false, hrot',
    bind_eq_bind, bind_some]
  rw [Rb815ctx.setIsBlack, loadHole_setIsBlack hlp hlg hne]
  rfl

/-- The comparison of `loc` with the inner link of a child of the grandparent, which leaves out the
valid bit, tells whether the path turns there. -/
theorem inner_block_iff (h : Tree815 D A ctx (fill (f :: g :: up) (.node b l k r))) (hk : k ≠ 0)
    (e : Side) :
    (((ctx.loadHole g.key).child e).valid = true ∧
      k = ((ctx.loadIf ((ctx.loadHole g.key).child e).loc).child e.other).block) ↔
      g.side = e ∧ f.side = e.other := by
  have hkmem : k ∈ (fill (f :: g :: up) (.node b l k r)).keys := by simp [CTree.keys]
  have hgmem : g.key ∈ (fill (f :: g :: up) (.node b l k r)).keys := by simp [TPath.keys]
  have hg : Tree815 D A ctx (up.fill (.mk g.side g.black g.key (f.fill (.node b l k r)) g.sib)) := h
  have hf : Tree815 D A ctx (fill (g :: up)
    (.mk f.side f.black f.key (.node b l k r) f.sib)) := h
  constructor
  · rintro ⟨hv, hblock⟩
    obtain ⟨x, hx⟩ := ne_none_iff_exists'.mp (Link815.valid_iff.mp hv)
    have hxview : (ctx.view.heap g.key).child e = some x := by
      rw [← h.node_eq hgmem, Rb815hole.node_child, hx]
    have hxmem := (h.rep.shape.parent_of_child hgmem hxview).1
    rw [Rb815ctx.loadIf_loc (h.isLoc hxmem) hx] at hblock
    cases hinner : ((ctx.loadHole x).child e.other).valid with
    | true =>
      have hany := h.rep.any_child_eq e
      rw [hxview, any_some, decide_eq_decide] at hany
      refine hany.mp ?_
      rw [← h.node_eq hxmem, Rb815hole.node_child, Link815.ptr, if_pos hinner, hblock]
    | false =>
      -- what is left there is not the repaired node
      exfalso
      have hlist : ∀ {z : ℕ}, z ∈ (fill (f :: g :: up) (.node b l k r)).toList ↔
          z ∈ (fill (f :: g :: up) (.node b l k r)).keys := CTree.mem_toList
      have hdiv : (((ctx.loadHole x).child e.other).div8 : ℕ) * 8 = k := hblock.symm
      obtain ⟨hlt, hbetween⟩ := h.allows.only x (hlist.mpr hxmem) e.other _
        (h.stale x hxmem e.other hinner) (by rw [hdiv]; exact hlist.mpr hkmem) (by rwa [hdiv])
      rw [hdiv] at hlt hbetween
      by_cases hge : g.side = e
      · obtain rfl : f.key = x := by
          have := hg.child_ptr
          rw [hge, hx, Frame.root?_fill] at this
          exact (some.inj this).symm
        have hfe : f.side = e := by
          by_contra hne
          have := hf.child_ptr
          rw [Side.eq_other_of_ne hne, Link815.valid_eq_false_iff.mp hinner] at this
          simp [CTree.root?] at this
        have := lt_of_sorted hf.allows.sorted (by simp [CTree.keys] : k ∈ _)
        rw [hfe] at this
        exact this.not_other hlt
      · have hgo : g.side = e.other := by
          have := Side.eq_other_of_ne (Ne.symm hge)
          rw [this, Side.other_other]
        have hxs : x ∈ g.sib.keys := by
          have := hg.child_other_ptr
          rw [hgo, Side.other_other, hx] at this
          exact CTree.mem_keys_of_root? this.symm
        have h1 : g.side.other.Lt g.key x := by
          have hg' := hg.allows.sorted
          rw [← CTree.mk_other] at hg'
          exact lt_of_sorted hg' hxs
        have h2 : g.side.Lt g.key k := lt_of_sorted hg.allows.sorted (by simp [CTree.keys])
        have h3 := h1.symm
        rw [Side.other_other] at h3
        rw [hgo] at h2 h3
        exact hbetween g.key (hlist.mpr hgmem) ⟨h3, h2⟩
  · rintro ⟨hge, hfe⟩
    have h1 := hg.child_ptr
    have h2 := hf.child_ptr
    rw [hge, Frame.root?_fill] at h1
    rw [hfe] at h2
    refine ⟨Link815.valid_iff.mpr (by rw [h1]; simp), ?_⟩
    rw [Rb815ctx.loadIf_loc (h.isLoc (by simp [TPath.keys])) h1]
    exact (Link815.block_of_ptr h2).symm

/-- The inner rotation. -/
theorem insertRotateInner (hW : ∀ k, Slot D k → W (k, 8))
    (h : Tree815 D A ctx (fill (f :: g :: up) (.node b l k r))) (hk : k ≠ 0)
    (hs : f.side = g.side.other) :
    ∃ ctx', ctx.insertRotateInner k f.key g.key = some (ctx', f.key) ∧
      Tree815 D A ctx' (fill (g :: up) (.mk g.side b k (.mk g.side f.black f.key f.sib
        (g.side.pick l r)) (g.side.pick r l))) ∧ TreeStep D W ctx ctx' := by
  have hleft := h.inner_block_iff hk .left
  have hright := h.inner_block_iff hk .right
  simp only [Rb815hole.child, Side.pick, Side.other] at hleft hright
  have hrot : Tree815 D A ctx (fill (g :: up) (.mk g.side f.black f.key f.sib
      (.mk g.side b k (g.side.pick l r) (g.side.pick r l)))) := by
    rw [fill_cons, Frame.fill, hs, CTree.mk_other, CTree.eq_mk g.side] at h
    exact h
  obtain ⟨ctx', hctx', h', hstep⟩ := hrot.rotate hW
  have hptr := h'.child_ptr
  rw [CTree.root?_mk] at hptr
  have hblock := Link815.block_of_ptr hptr
  have hvalid : ((ctx'.loadHole k).child g.side).valid = true :=
    Link815.valid_iff.mpr (by rw [hptr]; simp)
  refine ⟨ctx', ?_, h', hstep⟩
  simp only [Rb815ctx.insertRotateInner, hleft, hright]
  cases hg : g.side with
  | left =>
    simp only [hg, Rb815hole.child, Side.pick, Side.other] at hs hctx' hblock hvalid
    simp [hs, Rb815ctx.rotateLeft, hctx', hvalid, hblock]
  | right =>
    simp only [hg, Rb815hole.child, Side.pick, Side.other] at hs hctx' hblock hvalid
    simp [hs, Rb815ctx.rotateRight, hctx', hvalid, hblock]

theorem insertRotateInner_straight (h : Tree815 D A ctx (fill (f :: g :: up) (.node b l k r)))
    (hk : k ≠ 0) (hs : f.side = g.side) : ctx.insertRotateInner k f.key g.key = some (ctx, k) := by
  have hleft := h.inner_block_iff hk .left
  have hright := h.inner_block_iff hk .right
  simp only [Rb815hole.child, Side.pick, Side.other, hs] at hleft hright
  simp only [Rb815ctx.insertRotateInner, hleft, hright]
  cases g.side <;> simp

/-! ## The repair -/

variable {fuel : ℕ}

theorem insertRepair_of_black (h : Tree815 D A ctx (fill (f :: up) (.node b l k r)))
    (hf : f.black = true) : ctx.insertRepair (fuel + 1) k = some ctx := by
  have hpar := h.parent_ptr rfl
  have hblack : (ctx.loadHole f.key).isBlack = true :=
    (Linked815.isBlack_eq (C := up) h.toLinked815).trans hf
  simp only [Rb815ctx.insertRepair, Link815.valid_eq_false_iff, hpar, reduceCtorEq, if_false,
    Link815.block_of_ptr hpar, hblack, if_true]

theorem insertRepair_of_red (h : Tree815 D A ctx (fill (f :: g :: up) (.node b l k r)))
    (hf : ¬f.black = true) :
    ctx.insertRepair (fuel + 1) k =
      if g.sib.isRed = true then
        let uncleLoc := g.sib.root?.getD rb815Null
        let ctx1 := ctx.setIsBlack f.key true
        let ctx2 := ctx1.storeHole uncleLoc { ctx.loadIf uncleLoc with isBlack := true }
        (ctx2.storeHole g.key { ctx.loadHole g.key with isBlack := false }).insertRepair fuel g.key
      else (ctx.insertRotateInner k f.key g.key).bind fun c => c.1.insertRotateOuter c.2 := by
  have hpar := h.parent_ptr rfl
  have hgrand : (ctx.loadHole f.key).parent.ptr = some g.key :=
    Linked815.parent_ptr (T := f.fill (.node b l k r)) h.toLinked815 (by simp)
  have hblack : (ctx.loadHole f.key).isBlack = f.black :=
    Linked815.isBlack_eq (C := g :: up) h.toLinked815
  have huncle : Linked815 D ctx
    (fill (⟨g.side.other, g.black, g.key, f.fill (.node b l k r)⟩ :: up) g.sib) := by
    rw [← fill_swap]
    exact h.toLinked815
  rw [Rb815ctx.insertRepair]
  simp only [Link815.valid_eq_false_iff, hpar, hgrand, reduceCtorEq, if_false,
    Link815.block_of_ptr hpar, Link815.block_of_ptr hgrand, hblack, if_neg hf, h.getUncleLoc,
    bind_eq_bind, bind_some, huncle.isRed_iff]
  rfl

theorem insertRotate (hW : ∀ k, Slot D k → W (k, 8))
    (h : Tree815 D A ctx (fill (f :: g :: up) (.node false l k r))) (hk : k ≠ 0)
    (hred : ¬f.black = true) :
    ∃ ctx', ((ctx.insertRotateInner k f.key g.key).bind fun c => c.1.insertRotateOuter c.2) =
        some ctx' ∧
      Tree815 D A ctx' (up.fill (if f.side = g.side then
        .mk g.side true f.key (.node false l k r) (.mk g.side false g.key f.sib g.sib)
      else .mk g.side true k (.mk g.side false f.key f.sib (g.side.pick l r))
        (.mk g.side false g.key (g.side.pick r l) g.sib))) ∧ TreeStep D W ctx ctx' := by
  split_ifs with hs
  · have hin := h.insertRotateInner_straight hk hs
    rw [fill_cons, fill_cons, Frame.fill, Frame.fill, hs] at h
    obtain ⟨ctx', hctx', h', hstep⟩ := h.insertRotateOuter hW rfl
    exact ⟨ctx', by rw [hin]; exact hctx', h', hstep⟩
  · obtain ⟨ctx1, hctx1, h1, hs1⟩ := h.insertRotateInner hW hk (Side.eq_other_of_ne hs)
    rw [fill_cons, Frame.fill, Bool.not_eq_true _ |>.mp hred] at h1
    obtain ⟨ctx', hctx', h', hstep⟩ := h1.insertRotateOuter hW (CTree.root?_mk ..)
    exact ⟨ctx', by rw [hctx1]; exact hctx', h', hs1.trans hstep⟩

/-- The colours for a red parent beside a red uncle. The grandparent is not the first node. -/
theorem insertRecolour (hW : ∀ k, Slot D k → W (k, 8))
    (h : Tree815 D A ctx (fill (f :: g :: up) (.node false l k r))) (hf : ¬f.black = true)
    (hg : g.sib.isRed = true) :
    ∃ ctx', ctx.insertRepair (fuel + 1) k = ctx'.insertRepair fuel g.key ∧
      Tree815 D A ctx' (up.fill (.mk g.side false g.key
        ({ f with black := true }.fill (.node false l k r)) g.sib.blacken)) ∧
      TreeStep D W ctx ctx' ∧ g.key ≠ 0 := by
  obtain ⟨u, un, uf, hu⟩ := CTree.eq_mk_of_isRed g.side hg
  have htree : Tree815 D A ctx (up.fill (.mk g.side g.black g.key
      (.mk f.side f.black f.key (.node false l k r) f.sib) (.mk g.side false u un uf))) := by
    rw [← hu]
    exact h
  have hnd := htree.rep.nodup
  simp only [keys_fill, CTree.keys_mk, nodup_add, nodup_cons,
    disjoint_left, mem_add, mem_cons, not_or] at hnd
  obtain ⟨-, ⟨⟨⟨hgf, -⟩, hgu, -⟩, -, -, hfu⟩, -⟩ := hnd
  have hlf : IsLoc f.key := htree.isLoc (by simp)
  have hlg : IsLoc g.key := htree.isLoc (by simp)
  have hlu : IsLoc u := htree.isLoc (by simp)
  have huf : u ≠ f.key := fun he => (hfu (.inl rfl)).1 he.symm
  obtain ⟨h1, hs1⟩ := htree.paint_near hW true
  obtain ⟨h2, hs2⟩ := h1.paint_far hW true
  obtain ⟨h3, hs3⟩ := h2.paint hW false
  refine ⟨_, ?_, by rw [hu, CTree.blacken_mk]; exact h3, (hs1.trans hs2).trans hs3, ?_⟩
  · have hgl : ((ctx.setIsBlack f.key true).setIsBlack u true).loadHole g.key =
        ctx.loadHole g.key := by
      rw [loadHole_setIsBlack hlu hlg hgu, loadHole_setIsBlack hlf hlg hgf]
    have hul : (ctx.setIsBlack f.key true).setIsBlack u true =
        (ctx.setIsBlack f.key true).storeHole u { ctx.loadIf u with isBlack := true } := by
      rw [Rb815ctx.setIsBlack, loadHole_setIsBlack hlf hlu huf, Rb815ctx.loadIf_of_isLoc hlu]
    have hctx : ((ctx.setIsBlack f.key true).setIsBlack u true).setIsBlack g.key false =
        ((ctx.setIsBlack f.key true).storeHole u { ctx.loadIf u with isBlack := true }).storeHole
          g.key { ctx.loadHole g.key with isBlack := false } := by
      rw [Rb815ctx.setIsBlack, hgl, hul]
    rw [h.insertRepair_of_red hf, if_pos hg, hctx]
    simp only [hu, CTree.root?_mk, getD_some]
  · -- one of its two children is on its left
    have hnear := lt_of_sorted htree.allows.sorted (x := f.key) (by simp)
    have hfar : g.side.other.Lt g.key u := by
      have := htree.allows.sorted
      rw [← CTree.mk_other] at this
      exact lt_of_sorted this (by simp)
    cases hside : g.side <;> rw [hside] at hnear hfar
    · exact ((Nat.zero_le _).trans_lt hnear).ne'
    · exact ((Nat.zero_le _).trans_lt hfar).ne'

/-- The repair after an insertion is `insertFix`. -/
theorem insertRepair {Q : TPath ℕ} (hW : ∀ k, Slot D k → W (k, 8))
    (h : Tree815 D A ctx (Q.fill (.node false l k r))) (hk : k ≠ 0) (hQ : Q.topBlack = true)
    (hfuel : Q.length < fuel) :
    ∃ ctx', ctx.insertRepair fuel k = some ctx' ∧ Tree815 D A ctx' (insertFix Q l k r) ∧
      TreeStep D W ctx ctx' := by
  obtain ⟨fuel, rfl⟩ : ∃ n, fuel = n + 1 := ⟨fuel - 1, by omega⟩
  induction Q, l, k, r using insertFix.induct generalizing ctx fuel with
  | case1 l k r =>
    have hpar : (ctx.loadHole k).parent.ptr = none := by
      rw [← Rb815hole.node_parent, Linked815.loadHole_node (C := []) (d := .left) h.toLinked815]
      rfl
    obtain ⟨h', hs⟩ := paint (d := .left) (C := []) hW h true
    refine ⟨_, ?_, h', hs⟩
    rw [Rb815ctx.insertRepair, if_pos (Link815.valid_eq_false_iff.mpr hpar)]
    rfl
  | case2 f l k r => exact ⟨ctx, h.insertRepair_of_black hQ, h, .refl _⟩
  | case3 f g up l k r hf =>
    rw [insertFix, if_pos hf]
    exact ⟨ctx, h.insertRepair_of_black hf, h, .refl _⟩
  | case4 f g up l k r hf hg ih =>
    obtain ⟨fuel, rfl⟩ : ∃ n, fuel = n + 1 := ⟨fuel - 1, by simp at hfuel; omega⟩
    obtain ⟨ctx1, hctx1, h1, hs1, hg0⟩ := h.insertRecolour hW hf hg
    rw [CTree.mk_eq_node] at h1
    obtain ⟨ctx', hctx', h', hs'⟩ := ih h1 hg0 (topBlack_tail (topBlack_tail hQ)) fuel
      (by simp at hfuel; omega)
    rw [insertFix, if_neg hf, if_pos hg]
    exact ⟨ctx', hctx1.trans hctx', h', hs1.trans hs'⟩
  | case5 f g up l k r hf hg hs =>
    obtain ⟨ctx', hctx', h', hstep⟩ := h.insertRotate hW hk hf
    rw [if_pos hs] at h'
    rw [insertFix, if_neg hf, if_neg hg, if_pos hs]
    exact ⟨ctx', by rw [h.insertRepair_of_red hf, if_neg hg, hctx'], h', hstep⟩
  | case6 f g up l k r hf hg hs =>
    obtain ⟨ctx', hctx', h', hstep⟩ := h.insertRotate hW hk hf
    rw [if_neg hs] at h'
    rw [insertFix, if_neg hf, if_neg hg, if_neg hs]
    exact ⟨ctx', by rw [h.insertRepair_of_red hf, if_neg hg, hctx'], h', hstep⟩

end Tree815

end Pptk.Ipfrag
