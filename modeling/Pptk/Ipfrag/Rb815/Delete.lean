import Pptk.Ipfrag.Rb815.Insert
import Pptk.Ipfrag.Rb815.Exchange

/-!
# Deleting a node

`rb815_tree_delete` on the descriptors of a search tree takes the node out of the
in-order sequence, whatever the colours are. The repair for a black child computes
`deleteFix` without the change of colours in its last case; it stores a descriptor at
`RB815_HOLE_NULL` where the sibling, or the far child of the sibling, is missing. In a
red-black tree the repair is never called, as a black node with one child has a red
child. It is left out for a black node without children; after that the tree need not
be a red-black tree any more.

Main result: `Tree815.delete`.
-/

namespace Pptk.Ipfrag

open Pptk.Lib Pptk.Iphdr Pptk.Rbtree TPath Multiset Option

variable {D : ℕ → Prop} {W : ℕ × ℕ → Prop} {A : ℕ → Side → Fin 8192 → Prop} {ctx : Rb815ctx}
  {T : CTree ℕ} {C up : TPath ℕ} {f : Frame ℕ} {d : Side} {c fb b : Bool} {k fk x s : ℕ}
  {near far : CTree ℕ}

/-! ## Reading the sibling -/

namespace Linked815

theorem blackOrNull_eq (h : Linked815 D ctx (C.fill T)) :
    Rb815ctx.blackOrNull (T.root?.getD rb815Null) (ctx.loadIf (T.root?.getD rb815Null)) =
      !T.isRed := by
  have hred := h.isRed_iff
  rw [Bool.eq_iff_iff, Rb815ctx.blackOrNull, Bool.or_eq_true, decide_eq_true_iff, Bool.not_eq_true',
    ← Bool.not_eq_true, ← hred]
  by_cases h1 : T.root?.getD rb815Null = rb815Null <;> simp [h1]

theorem loadSibling_mk (h : Linked815 D ctx (C.fill (.mk d b s near far))) :
    (ctx.loadSibling s).s = ctx.loadHole s ∧
      d.pick (ctx.loadSibling s).leftLoc (ctx.loadSibling s).rightLoc = near.root?.getD rb815Null ∧
      d.pick (ctx.loadSibling s).rightLoc (ctx.loadSibling s).leftLoc = far.root?.getD rb815Null ∧
      d.pick (ctx.loadSibling s).left (ctx.loadSibling s).right =
        ctx.loadIf (near.root?.getD rb815Null) ∧
      d.pick (ctx.loadSibling s).right (ctx.loadSibling s).left =
        ctx.loadIf (far.root?.getD rb815Null) := by
  have hs : IsLoc s := h.isLoc (by simp)
  have hn := h.child_ptr
  have hf := h.child_other_ptr
  simp only [Rb815ctx.loadSibling, if_neg hs.ne_null, Rb815ctx.loadIf_of_isLoc hs, ← hn, ← hf,
    ← Link815.loc_eq_getD]
  cases d <;> exact ⟨trivial, rfl, rfl, rfl, rfl⟩

theorem noRed_eq {sib : CTree ℕ} (h : Linked815 D ctx (C.fill sib)) :
    Rb815ctx.noRed (sib.root?.getD rb815Null) (ctx.loadSibling (sib.root?.getD rb815Null)) =
      (!sib.isRed && !sib.hasRedChild) := by
  cases sib with
  | leaf => rfl
  | node b l s r =>
    have hmk : Linked815 D ctx (C.fill (.mk .left b s l r)) := h
    obtain ⟨h1, h2, h3, h4, h5⟩ := hmk.loadSibling_mk
    simp only [Side.pick] at h2 h3 h4 h5
    have hb := h.blackOrNull_eq
    have hl := blackOrNull_eq (C := ⟨.left, b, s, r⟩ :: C) h
    have hr := blackOrNull_eq (C := ⟨.right, b, s, l⟩ :: C) h
    have hs : IsLoc s := h.isLoc (by simp [CTree.keys])
    simp only [CTree.root?, getD_some, Rb815ctx.loadIf_of_isLoc hs] at hb ⊢
    rw [Rb815ctx.noRed, h1, h2, h3, h4, h5, hb, hl, hr, CTree.hasRedChild, Bool.not_or,
      Bool.and_assoc]

theorem swap (h : Linked815 D ctx (fill (f :: up) T)) :
    Linked815 D ctx (fill (⟨f.side.other, f.black, f.key, T⟩ :: up) f.sib) := by
  rw [← fill_swap]
  exact h

end Linked815

/-! ## The repair -/

/-- A descriptor may be stored at `RB815_HOLE_NULL`. -/
structure NullStore (D : ℕ → Prop) (W : ℕ × ℕ → Prop) : Prop where
  mem : ∀ i, rb815Null ≤ i → D i
  store : W (rb815Null, 8)

namespace Tree815

theorem swap (h : Tree815 D A ctx (fill (f :: up) T)) :
    Tree815 D A ctx (fill (⟨f.side.other, f.black, f.key, T⟩ :: up) f.sib) := by
  rw [← fill_swap]
  exact h

theorem storeNull (hN : NullStore D W) (h : Tree815 D A ctx T) (hole : Rb815hole) :
    Tree815 D A (ctx.storeHole rb815Null hole) T ∧
      TreeStep D W ctx (ctx.storeHole rb815Null hole) := by
  have hload : ∀ i, IsLoc i → (ctx.storeHole rb815Null hole).loadHole i = ctx.loadHole i :=
    fun i hi => by rw [Rb815ctx.loadHole_storeHole (.inr rfl) hi, if_neg hi.ne_null]
  refine ⟨h.of_relinked h.rep rfl rfl (fun i hi => ?_) (fun i hi d hd hv => ?_),
    Touches.store (fun j hj _ => hN.mem j hj) hN.store _ _, fun i hi => by rw [hload i hi]⟩
  · rw [hload i (h.isLoc hi), ← h.node_eq hi]
    exact .refl _
  · rw [← h.node_eq hi, Rb815hole.node_child] at hd
    exact absurd hd (Link815.valid_iff.mp hv)

theorem paintRoot (hW : ∀ k, Slot D k → W (k, 8)) (hN : NullStore D W)
    (h : Tree815 D A ctx (C.fill T)) (b : Bool) :
    Tree815 D A (ctx.storeHole (T.root?.getD rb815Null)
        { ctx.loadIf (T.root?.getD rb815Null) with isBlack := b })
      (C.fill (if b then T.blacken else T.redden)) ∧
      TreeStep D W ctx (ctx.storeHole (T.root?.getD rb815Null)
        { ctx.loadIf (T.root?.getD rb815Null) with isBlack := b }) := by
  cases T with
  | leaf =>
    have := h.storeNull hN { ctx.loadIf rb815Null with isBlack := b }
    cases b <;> exact this
  | node c l s r =>
    have hs : IsLoc s := h.isLoc (by simp [CTree.keys])
    have := paint (d := .left) hW h b
    rw [CTree.root?, getD_some, Rb815ctx.loadIf_of_isLoc hs]
    cases b <;> exact this

theorem deleteCase6 (hW : ∀ k, Slot D k → W (k, 8)) (hN : NullStore D W)
    (h : Tree815 D A ctx (up.fill (.mk d fb fk T (.mk d b s near far)))) (hx : T.root? = some x) :
    ∃ ctx', ctx.deleteCase6 x fk = some ctx' ∧
      Tree815 D A ctx' (Lib.deleteCase6 false ⟨d, fb, fk, .mk d b s near far⟩ up T) ∧
      TreeStep D W ctx ctx' := by
  have hsib := h.getSiblingLocParent hx
  have hleft : (ctx.loadHole fk).left.PointsTo x ↔ d = .left := h.pointsTo_iff hx .left
  rw [CTree.root?_mk, getD_some] at hsib
  have hs : IsLoc s := h.isLoc (by simp)
  have hfk : IsLoc fk := h.isLoc (by simp)
  have hswap : Tree815 D A ctx (fill (⟨d.other, fb, fk, T⟩ :: up) (.mk d b s near far)) :=
    swap (f := ⟨d, fb, fk, .mk d b s near far⟩) h
  obtain ⟨-, -, h3, -, h5⟩ := hswap.loadSibling_mk
  have hfar : Tree815 D A ctx
      (fill (⟨d.other, b, s, near⟩ :: ⟨d.other, fb, fk, T⟩ :: up) far) :=
    swap (f := ⟨d, b, s, far⟩) (T := near) hswap
  obtain ⟨h1, hs1⟩ := hfar.paintRoot hW hN true
  have h1' : Tree815 D A (ctx.storeHole (far.root?.getD rb815Null)
      { ctx.loadIf (far.root?.getD rb815Null) with isBlack := true })
      (up.fill (.mk d fb fk T (.mk d b s near far.blacken))) := by
    rw [fill_cons, fill_cons, Frame.fill, Frame.fill, CTree.mk_other, CTree.mk_other] at h1
    exact h1
  obtain ⟨ctx', hctx', h', hs'⟩ := h1'.rotate hW
  refine ⟨ctx', ?_, by rw [deleteCase6_mk]; exact h', hs1.trans hs'⟩
  simp only [Rb815ctx.deleteCase6, hsib, bind_eq_bind, bind_some]
  rw [if_neg (not_or.mpr ⟨hs.ne_null, hfk.ne_null⟩)]
  cases d with
  | left =>
    simp only [Side.pick] at h3 h5
    rw [if_pos (hleft.mpr rfl), h3, h5]
    exact hctx'
  | right =>
    simp only [Side.pick] at h3 h5
    rw [if_neg fun hl => by simpa using hleft.mp hl, h3, h5]
    exact hctx'

theorem deleteRotate5 (hW : ∀ k, Slot D k → W (k, 8))
    (h : Tree815 D A ctx (up.fill (.mk d fb fk T (.mk d b s near far)))) (hx : T.root? = some x) :
    ∃ ctx', ctx.deleteRotate5 x fk = some ctx' ∧
      Tree815 D A ctx' (fill (Lib.deleteCase5 ⟨d, fb, fk, .mk d b s near far⟩ :: up) T) ∧
      TreeStep D W ctx ctx' := by
  have hsib := h.getSiblingLocParent hx
  have hleft : (ctx.loadHole fk).left.PointsTo x ↔ d = .left := h.pointsTo_iff hx .left
  have hright : (ctx.loadHole fk).right.PointsTo x ↔ d = .right := h.pointsTo_iff hx .right
  rw [CTree.root?_mk, getD_some] at hsib
  have hs : IsLoc s := h.isLoc (by simp)
  have hfk : IsLoc fk := h.isLoc (by simp)
  have hswap : Tree815 D A ctx (fill (⟨d.other, fb, fk, T⟩ :: up) (.mk d b s near far)) :=
    swap (f := ⟨d, fb, fk, .mk d b s near far⟩) h
  obtain ⟨h1, h2, h3, h4, h5⟩ := hswap.loadSibling_mk
  have hb := hswap.isBlack_eq
  have hnear := Linked815.blackOrNull_eq (C := ⟨d, b, s, far⟩ :: ⟨d.other, fb, fk, T⟩ :: up)
    hswap.toLinked815
  have hfar : Linked815 D ctx
      (fill (⟨d.other, b, s, near⟩ :: ⟨d.other, fb, fk, T⟩ :: up) far) :=
    Linked815.swap (f := ⟨d, b, s, far⟩) (T := near) hswap.toLinked815
  have hcase : ctx.deleteRotate5 x fk =
      if b && !far.isRed && near.isRed then
        ((ctx.setIsBlack s false).storeHole (near.root?.getD rb815Null)
          { ctx.loadIf (near.root?.getD rb815Null) with isBlack := true }).rotate d.other s
      else some ctx := by
    have hfar' := hfar.blackOrNull_eq
    simp only [Rb815ctx.deleteRotate5, hsib, bind_eq_bind, bind_some, h1, hb]
    rw [if_neg (not_or.mpr ⟨hs.ne_null, hfk.ne_null⟩)]
    cases d with
    | left =>
      simp only [Side.pick] at h2 h3 h4 h5
      simp only [h2, h3, h4, h5, hleft, hright, hnear, hfar', Rb815ctx.setIsBlack]
      cases b <;> cases far.isRed <;> cases near.isRed <;>
        simp [Rb815ctx.rotateRight, Side.other]
    | right =>
      simp only [Side.pick] at h2 h3 h4 h5
      simp only [h2, h3, h4, h5, hleft, hright, hnear, hfar', Rb815ctx.setIsBlack]
      cases b <;> cases far.isRed <;> cases near.isRed <;>
        simp [Rb815ctx.rotateLeft, Side.other]
  rw [hcase]
  split_ifs with hc
  · simp only [Bool.and_eq_true, Bool.not_eq_true'] at hc
    obtain ⟨⟨rfl, hfr⟩, hnr⟩ := hc
    obtain ⟨n, nn, nf, rfl⟩ := CTree.eq_mk_of_isRed d hnr
    have hn : IsLoc n := h.isLoc (by simp)
    have hns : n ≠ s := by
      have hnd := hswap.rep.nodup
      simp only [keys_fill, CTree.keys_mk, nodup_add, nodup_cons, mem_add, mem_cons, not_or] at hnd
      exact Ne.symm hnd.2.1.1.1.1
    obtain ⟨h₁, hs1⟩ := hswap.paint hW false
    obtain ⟨h₂, hs2⟩ := h₁.paint_near hW true
    obtain ⟨ctx', hctx', h', hs'⟩ := h₂.rotate_other hW
    refine ⟨ctx', ?_, ?_, (hs1.trans hs2).trans hs'⟩
    · have hpaint : (ctx.setIsBlack s false).setIsBlack n true =
          (ctx.setIsBlack s false).storeHole n { ctx.loadHole n with isBlack := true } := by
        rw [Rb815ctx.setIsBlack, loadHole_setIsBlack hs hn hns]
      rw [CTree.root?_mk, getD_some, Rb815ctx.loadIf_of_isLoc hn, ← hctx', hpaint]
    · rw [deleteCase5_rotates _ _ _ _ _ _ _ _ hfr]
      simpa only [Side.other_other] using swap (f := ⟨d.other, fb, fk, T⟩) h'
  · refine ⟨ctx, rfl, ?_, .refl _⟩
    rw [deleteCase5_keeps]
    · exact h
    · simp only [Bool.and_eq_true, Bool.not_eq_true', not_and, Bool.not_eq_true] at hc
      cases b <;> cases hf : far.isRed <;> simp_all

theorem reddenSibling (hW : ∀ k, Slot D k → W (k, 8)) (hN : NullStore D W)
    (h : Tree815 D A ctx (fill (f :: up) T)) :
    ∃ ctx1, ctx.storeHole (f.sib.root?.getD rb815Null)
        { (ctx.loadSibling (f.sib.root?.getD rb815Null)).s with isBlack := false } = ctx1 ∧
      Tree815 D A ctx1 (fill ({ f with sib := f.sib.redden } :: up) T) ∧
      TreeStep D W ctx ctx1 ∧ ctx1.loadHole f.key = ctx.loadHole f.key := by
  obtain ⟨h1, hs1⟩ := h.swap.paintRoot hW hN false
  refine ⟨_, rfl, ?_, hs1, ?_⟩
  · have h2 := h1.swap
    simp only [Side.other_other, Bool.false_eq_true, if_false] at h2
    exact h2
  · have hfk : IsLoc f.key := h.isLoc (by simp [TPath.keys])
    cases hroot : f.sib.root? with
    | none => exact (Rb815ctx.loadHole_storeHole (.inr rfl) hfk).trans (if_neg hfk.ne_null)
    | some s =>
      have hs := CTree.mem_keys_of_root? hroot
      have hsl : IsLoc s := h.isLoc (by simp [TPath.keys, hs])
      refine (Rb815ctx.loadHole_storeHole (.inl hsl) hfk).trans (if_neg ?_)
      rintro he
      have hnd := h.rep.nodup
      simp only [keys_fill, TPath.keys, nodup_add, nodup_cons, mem_add, not_or] at hnd
      have hks : f.key = s := he
      exact hnd.1.1.1 (hks ▸ hs)

/-- Case 4 and what follows it, unless everything around is black. -/
theorem deleteCase4 (hW : ∀ k, Slot D k → W (k, 8)) (hN : NullStore D W)
    (h : Tree815 D A ctx (fill (f :: up) T)) (hx : T.root? = some x)
    (hc : f.black = false ∨ (f.sib.isRed || f.sib.hasRedChild) = true) :
    ∃ ctx', ctx.deleteCase4 x f.key = some ctx' ∧
      Tree815 D A ctx' (Lib.deleteCase4 false f up T) ∧ TreeStep D W ctx ctx' := by
  have hmk : Tree815 D A ctx (up.fill (.mk f.side f.black f.key T f.sib)) := h
  have hsib := hmk.getSiblingLocParent hx
  have hblack := hmk.isBlack_eq
  have hred := h.swap.noRed_eq
  simp only [Rb815ctx.deleteCase4, hsib, bind_eq_bind, bind_some, hblack, hred,
    Lib.deleteCase4, ← Bool.and_assoc]
  split_ifs with h4
  · obtain ⟨ctx1, hctx1, h1, hs1, hload⟩ := h.reddenSibling hW hN
    obtain ⟨h2, hs2⟩ := paint (C := up) hW h1 true
    rw [Rb815ctx.setIsBlack, hload] at h2 hs2
    exact ⟨_, by rw [hctx1], h2, hs1.trans hs2⟩
  · have hne : f.sib ≠ .leaf := by
      rintro hleaf
      simp only [hleaf, CTree.isRed, CTree.hasRedChild, Bool.or_self, Bool.false_eq_true, or_false]
        at hc h4
      simp [hc] at h4
    obtain ⟨d, fb, fk, sib⟩ := f
    obtain ⟨b, s, near, far, rfl⟩ := CTree.exists_mk d hne
    obtain ⟨ctx1, hctx1, h1, hs1⟩ := hmk.deleteRotate5 hW hx
    obtain ⟨b', s', near', far', he⟩ : ∃ b' s' near' far',
        Lib.deleteCase5 ⟨d, fb, fk, .mk d b s near far⟩ = ⟨d, fb, fk, .mk d b' s' near' far'⟩ := by
      by_cases hk : b = false ∨ far.isRed = true ∨ near.isRed = false
      · exact ⟨b, s, near, far, deleteCase5_keeps fb b d fk s near far hk⟩
      · simp only [not_or, Bool.not_eq_false, Bool.not_eq_true] at hk
        obtain ⟨rfl, hfar, hnear⟩ := hk
        obtain ⟨n, nn, nf, rfl⟩ := CTree.eq_mk_of_isRed d hnear
        exact ⟨_, _, _, _, deleteCase5_rotates fb d fk s far n nn nf hfar⟩
    rw [he] at h1 ⊢
    obtain ⟨ctx', hctx', h', hs'⟩ := h1.deleteCase6 hW hN hx
    exact ⟨ctx', by simp [Rb815ctx.deleteCase5, hctx1, hctx'], h', hs1.trans hs'⟩

theorem deleteRotate2 (hW : ∀ k, Slot D k → W (k, 8))
    (h : Tree815 D A ctx (up.fill (.mk d fb fk T (.mk d false s near far))))
    (hx : T.root? = some x) :
    ∃ ctx', ctx.deleteRotate2 x fk = some ctx' ∧
      Tree815 D A ctx' (up.fill (.mk d true s (.mk d false fk T near) far)) ∧
      TreeStep D W ctx ctx' := by
  have hsib := h.getSiblingLocParent hx
  have hleft : (ctx.loadHole fk).left.PointsTo x ↔ d = .left := h.pointsTo_iff hx .left
  rw [CTree.root?_mk, getD_some] at hsib
  have hs : IsLoc s := h.isLoc (by simp)
  have hfk : IsLoc fk := h.isLoc (by simp)
  have hsfk : s ≠ fk := by
    have hnd := h.rep.nodup
    simp only [keys_fill, CTree.keys_mk, nodup_add, nodup_cons, mem_add, mem_cons, not_or] at hnd
    exact Ne.symm hnd.2.1.1.2.1
  have hred : (ctx.loadHole s).isBlack = false :=
    (swap (f := ⟨d, fb, fk, .mk d false s near far⟩) h).isBlack_eq
  obtain ⟨h1, hs1⟩ := h.paint hW false
  obtain ⟨h2, hs2⟩ := h1.paint_far hW true
  obtain ⟨ctx', hctx', h', hs'⟩ := h2.rotate hW
  refine ⟨ctx', ?_, h', (hs1.trans hs2).trans hs'⟩
  have hpaint : (ctx.setIsBlack fk false).setIsBlack s true =
      (ctx.storeHole fk { ctx.loadHole fk with isBlack := false }).storeHole s
        { ctx.loadHole s with isBlack := true } := by
    rw [Rb815ctx.setIsBlack, loadHole_setIsBlack hfk hs hsfk, Rb815ctx.setIsBlack]
  rw [hpaint] at hctx'
  simp only [Rb815ctx.deleteRotate2, hsib, bind_eq_bind, bind_some, Rb815ctx.loadIf_of_isLoc hs]
  rw [if_pos ⟨hs.ne_null, hred⟩]
  cases d with
  | left => exact (if_pos (hleft.mpr rfl)).trans hctx'
  | right => exact (if_neg fun hl => by simpa using hleft.mp hl).trans hctx'

theorem deleteCase3_eq (case1 : Rb815ctx → ℕ → ℕ → Option Rb815ctx)
    (h : Tree815 D A ctx (fill (f :: up) T)) (hx : T.root? = some x) :
    ctx.deleteCase3 case1 x f.key =
      if f.black && (!f.sib.isRed && !f.sib.hasRedChild) then
        case1 (ctx.storeHole (f.sib.root?.getD rb815Null)
          { (ctx.loadSibling (f.sib.root?.getD rb815Null)).s with isBlack := false }) f.key
          (up.parent?.getD rb815Null)
      else ctx.deleteCase4 x f.key := by
  have hmk : Tree815 D A ctx (up.fill (.mk f.side f.black f.key T f.sib)) := h
  have hsib := hmk.getSiblingLocParent hx
  have hblack := hmk.isBlack_eq
  have hred := h.swap.noRed_eq
  have hpar : (ctx.loadHole f.key).parent.loc = up.parent?.getD rb815Null := by
    rw [Link815.loc_eq_getD, ← Rb815hole.node_parent, hmk.loadHole_node, PNode.parent_mk']
  simp only [Rb815ctx.deleteCase3, hsib, bind_eq_bind, bind_some, hblack, hred, hpar]

theorem deleteRotate2_of_black (h : Tree815 D A ctx (fill (f :: up) T)) (hx : T.root? = some x)
    (hs : f.sib.isRed = false) : ctx.deleteRotate2 x f.key = some ctx := by
  have hmk : Tree815 D A ctx (up.fill (.mk f.side f.black f.key T f.sib)) := h
  have hred := h.swap.isRed_iff
  simp only [Rb815ctx.deleteRotate2, hmk.getSiblingLocParent hx, bind_eq_bind, bind_some]
  rw [if_neg (by rw [hred, hs]; simp)]

/-- The repair computes `deleteFix`. -/
theorem deleteCase1 {Q : TPath ℕ} {fuel : ℕ} (hW : ∀ k, Slot D k → W (k, 8)) (hN : NullStore D W)
    (h : Tree815 D A ctx (Q.fill T)) (hx : T.root? = some x) (hfuel : Q.length < fuel) :
    ∃ ctx', ctx.deleteCase1 fuel x (Q.parent?.getD rb815Null) = some ctx' ∧
      Tree815 D A ctx' (deleteFix false Q T) ∧ TreeStep D W ctx ctx' := by
  induction Q generalizing T ctx x fuel with
  | nil =>
    obtain ⟨fuel, rfl⟩ : ∃ m, fuel = m + 1 := ⟨fuel - 1, by simp at hfuel; omega⟩
    exact ⟨ctx, rfl, h, .refl _⟩
  | cons f up ih =>
    obtain ⟨fuel, rfl⟩ : ∃ m, fuel = m + 1 := ⟨fuel - 1, by simp at hfuel; omega⟩
    have hfk : IsLoc f.key := h.isLoc (by simp [TPath.keys])
    rw [parent?, getD_some, Rb815ctx.deleteCase1, if_neg hfk.ne_null, Rb815ctx.deleteCase2]
    cases hs : f.sib.isRed with
    | true =>
      obtain ⟨d, fb, fk, sib⟩ := f
      obtain ⟨s, near, far, rfl⟩ := CTree.eq_mk_of_isRed d hs
      obtain ⟨ctx1, hctx1, h1, hs1⟩ := deleteRotate2 hW h hx
      have h1' : Tree815 D A ctx1
          (fill (⟨d, false, fk, near⟩ :: ⟨d, true, s, far⟩ :: up) T) := h1
      obtain ⟨ctx', hctx', h', hs'⟩ := h1'.deleteCase4 hW hN hx (.inl rfl)
      have h3 := h1'.deleteCase3_eq (Rb815ctx.deleteCase1 fuel) hx
      simp only [Bool.false_and, Bool.false_eq_true, if_false] at h3
      rw [deleteFix_cons_red]
      exact ⟨ctx', by rw [hctx1]; exact h3.trans hctx', h', hs1.trans hs'⟩
    | false =>
      have h3 := h.deleteCase3_eq (Rb815ctx.deleteCase1 fuel) hx
      simp only [h.deleteRotate2_of_black hx hs, bind_eq_bind, bind_some, h3]
      rw [deleteFix_cons_black false up T hs]
      simp only [hs, Bool.not_false, Bool.true_and]
      split_ifs with hc
      · -- the sibling becomes red, if there is one, and the parent's subtree is now one short
        obtain ⟨ctx1, hctx1, h1, hs1, -⟩ := h.reddenSibling hW hN
        have hup : List.length up < fuel := by
          simp at hfuel
          omega
        obtain ⟨ctx', hctx', h', hs'⟩ := ih h1 (Frame.root?_fill ..) hup
        exact ⟨ctx', by rw [hctx1]; exact hctx', h', hs1.trans hs'⟩
      · refine h.deleteCase4 hW hN hx ?_
        rw [hs, Bool.false_or]
        cases hb : f.black <;> simp_all

end Tree815

/-! ## Taking out a node -/

/-- What a deletion does to the rest of the context and to the colour of the root. -/
structure DeleteStep (D : ℕ → Prop) (W : ℕ × ℕ → Prop) (ctx ctx' : Rb815ctx) (T T' : CTree ℕ) : Prop
    extends TreeStep D W ctx ctx' where
  root : T.isRed = false → T'.isRed = false

/-- The only child of a black node in a red-black tree is red. -/
theorem isRed_of_isRb (h : (C.fill (.mk d true k T .leaf)).IsRb) : T = .leaf ∨ T.isRed = true := by
  obtain ⟨n, -, hn, -⟩ := exists_pathRb h
  obtain ⟨m, -, hT, hm⟩ := (CTree.rb_mk_black ..).mp hn
  rw [CTree.rb_leaf] at hm
  subst hm
  cases T with
  | leaf => exact .inl rfl
  | node b l x r =>
    cases b with
    | false => exact .inr rfl
    | true =>
      obtain ⟨m, hm, -⟩ := hT
      omega

/-- `rb815_tree_delete_one_child`, for a node that may be out of order. A red-black tree stays one
unless the node is black, has no child and is not the root. -/
theorem Linked815.deleteOneChild {fuel : ℕ} (hW : ∀ k, Slot D k → W (k, 8))
    (hnull : NullStore D W ∨ (C.fill (.mk d c k T .leaf)).IsRb)
    (h : Linked815 D ctx (C.fill (.mk d c k T .leaf))) (hA : AllowsStale A (C.fill T).toList)
    (hstale : ∀ z ∈ (C.fill T).keys, (ctx.loadHole z).LeftIn (A z)) (hfuel : C.length < fuel) :
    ∃ ctx' T', ctx.deleteOneChild fuel k = some ctx' ∧ Tree815 D A ctx' T' ∧
      T'.toList = (C.fill T).toList ∧
      DeleteStep D W ctx ctx' (C.fill (.mk d c k T .leaf)) T' ∧
      ((C.fill (.mk d c k T .leaf)).IsRb → (T'.IsRb ↔ ¬(c = true ∧ T = .leaf ∧ C ≠ []))) := by
  have hblack := h.isBlack_eq
  have hpar : (ctx.loadHole k).parent.loc = C.parent?.getD rb815Null := by
    rw [Link815.loc_eq_getD, ← Rb815hole.node_parent, h.loadHole_node, PNode.parent_mk']
  have hchild : (if (ctx.loadHole k).right.valid = false then (ctx.loadHole k).left.loc
      else (ctx.loadHole k).right.loc) = T.root?.getD rb815Null := by
    have hn := h.child_ptr
    have hf := h.child_other_ptr
    simp only [Link815.valid_eq_false_iff, Link815.loc_eq_getD]
    cases d with
    | left =>
      simp only [Rb815hole.child, Side.pick, Side.other] at hn hf
      rw [hn, hf]
      rfl
    | right =>
      simp only [Rb815hole.child, Side.pick, Side.other] at hn hf
      rw [hn, hf]
      cases T <;> rfl
  obtain ⟨hU, hsU, hsnd, hleft⟩ := h.unlink hW
  have hT : Tree815 D A (ctx.unlink k (T.root?.getD rb815Null)).1 (C.fill T) :=
    ⟨hU, hA, fun z hz => hleft z hz (A z) (hA.null z) (hstale z hz)⟩
  have hrb : (C.fill (.mk d c k T .leaf)).IsRb → (removeFix true C c T).IsRb := isRb_removeFix
  have htop : (C.fill (.mk d c k T .leaf)).isRed = false → C.topBlack = true ∧
    (C = [] → c = true) := by
    intro hr
    cases C with
    | nil => exact ⟨rfl, fun _ => by simpa using hr⟩
    | cons f up => exact ⟨by simpa [isRed_fill_cons] using hr, by simp⟩
  simp only [Rb815ctx.deleteOneChild, hchild, hpar, hblack]
  cases c with
  | false =>
    refine ⟨_, C.fill T, rfl, hT, rfl, ⟨hsU, fun hr => ?_⟩,
      fun hb => iff_of_true (hrb hb) (by simp)⟩
    exact isRed_fill (htop hr).1 fun hC => absurd ((htop hr).2 hC) (by simp)
  | true =>
    rw [if_pos rfl]
    cases hroot : T.root? with
    | none =>
      obtain rfl := CTree.root?_eq_none.mp hroot
      rw [getD_none, if_neg (by simp), if_neg (by simp)]
      refine ⟨_, C.fill .leaf, rfl, hT, rfl,
        ⟨hsU, fun hr => isRed_fill (htop hr).1 fun _ => rfl⟩, fun hb => ?_⟩
      cases C with
      | nil => exact iff_of_true ⟨rfl, 0, rfl⟩ (by simp)
      | cons f up => exact iff_of_false (not_isRb_fill_leaf (by simp) hb) (by simp)
    | some x =>
      have hx : IsLoc x := hT.isLoc (by simp [CTree.mem_keys_of_root? hroot])
      have hred := hT.isRed_iff
      rw [hroot] at hT hsU hsnd hred
      rw [hsnd x rfl]
      simp only [getD_some, Rb815ctx.loadIf_of_isLoc hx] at hT hsU hsnd hred ⊢
      by_cases hr : T.isRed = true
      · rw [if_pos (hred.mpr hr)]
        obtain ⟨y, l, r, rfl⟩ := CTree.eq_mk_of_isRed .left hr
        obtain rfl : y = x := by simpa using hroot
        obtain ⟨h', hs'⟩ := hT.paint hW true
        refine ⟨_, _, rfl, h', toList_fill_congr C (CTree.toList_mk_congr _ rfl rfl),
          ⟨hsU.trans hs', fun hr => ?_⟩, fun hb => iff_of_true (hrb hb) ?_⟩
        · exact isRed_fill (htop hr).1 (by simp)
        · exact fun hno => CTree.mk_ne_leaf _ _ _ _ _ hno.2.1
      · -- the child of a black node is red unless the tree is out of balance
        have hne : T ≠ .leaf := by
          rintro rfl
          simp [CTree.root?] at hroot
        have hrb' : ¬(C.fill (.mk d true k T .leaf)).IsRb := fun hb =>
          (isRed_of_isRb hb).elim hne hr
        obtain ⟨ctx', hctx', h', hs'⟩ := hT.deleteCase1 hW (hnull.resolve_right hrb') hroot hfuel
        rw [if_neg (hred.not.mpr hr), if_pos hx.ne_null]
        exact ⟨ctx', _, hctx', h', toList_deleteFix .., ⟨hsU.trans hs', fun ht =>
          isRed_deleteFix (htop ht).1 fun _ => by simpa using hr⟩, fun hb => absurd hb hrb'⟩

/-! ## Deletion -/

namespace Linked815

/-- The loops that go down on one side do so in the linked tree. -/
theorem descend_eq (h : Linked815 D ctx T) (hk : k ∈ T.keys) (fuel : ℕ) :
    ctx.descend d fuel k = ctx.view.descend d fuel k := by
  induction fuel generalizing k with
  | zero => rfl
  | succ fuel ih =>
    rw [Rb815ctx.descend, RbTreeNocmp.descend, ← h.node_eq hk, Rb815hole.node_child]
    cases hp : ((ctx.loadHole k).child d).ptr with
    | none => exact if_neg (by rw [Link815.valid_iff, hp]; simp)
    | some x =>
      have hx : x ∈ T.keys :=
        (h.rep.shape.parent_of_child hk (by rw [← h.node_eq hk, Rb815hole.node_child, hp])).1
      simp only [Link815.valid_iff, hp, ne_eq, reduceCtorEq, not_false_eq_true, if_true,
        Link815.block_of_ptr hp]
      exact ih hx

theorem rightmost {fuel : ℕ} (h : Linked815 D ctx T) (hfuel : T.keys.card ≤ fuel) :
    ctx.rightmost fuel = some (T.toList.getLast?.getD rb815Null) := by
  have hr := h.rep.rightmost hfuel
  rw [RbTreeNocmp.rightmost, RbTreeNocmp.extreme, h.rep.root] at hr
  have hroot := h.rep.root
  rw [Rb815ctx.view] at hroot
  rw [Rb815ctx.rightmost]
  split_ifs at hroot ⊢ with h0
  · rw [← hroot, some.injEq] at hr
    rw [← hr]
    rfl
  · rw [← hroot] at hr
    have hk : ctx.rootHole ∈ T.keys := CTree.mem_keys_of_root? hroot.symm
    simp only [← h.descend_eq hk, map_eq_some_iff] at hr
    obtain ⟨x, hx, hlast⟩ := hr
    rw [hx, ← hlast]
    rfl

end Linked815

/-- `rb815_tree_delete` takes the node out. `A'` allows what `A` allows, and what the links to the
node leave. A red-black tree stays one exactly if the node does not need the repair that is left
out. -/
theorem Tree815.delete {A' : ℕ → Side → Fin 8192 → Prop} {fuel : ℕ} (hW : ∀ k, Slot D k → W (k, 8))
    (hnull : NullStore D W ∨ T.IsRb) (h : Tree815 D A ctx T) (hk : k ∈ T.keys)
    (hA : AllowsStale A' (T.toList.erase k)) (hmono : ∀ z e s, A z e s → A' z e s)
    (hfuel : T.keys.card ≤ fuel) :
    ∃ ctx' T', ctx.delete fuel k = some ctx' ∧ Tree815 D A' ctx' T' ∧
      T'.toList = T.toList.erase k ∧ DeleteStep D W ctx ctx' T T' ∧
      (T.IsRb → (T'.IsRb ↔ ¬T.NeedsRepair k)) := by
  obtain ⟨C, b, l, r, rfl⟩ := exists_fill_of_mem hk
  have hkC : k ∉ C.keys := by
    have hnd := h.rep.nodup
    rw [keys_fill, CTree.keys, add_cons, nodup_cons, mem_add, not_or] at hnd
    exact hnd.1.1
  have hleftIn : ∀ z ∈ (C.fill (.node b l k r)).keys, (ctx.loadHole z).LeftIn (A' z) :=
    fun z hz e he => hmono z e _ (h.stale z hz e he)
  have hl : (ctx.loadHole k).left.ptr = l.root? := Linked815.child_ptr (d := .left) h.toLinked815
  have hr : (ctx.loadHole k).right.ptr = r.root? := Linked815.child_ptr (d := .right) h.toLinked815
  have hlen := C.length_le_card
  have hcard : C.length < fuel := by
    rw [keys_fill, CTree.keys, card_add, card_cons] at hfuel
    omega
  rw [toList_fill_erase h.rep.nodup] at hA ⊢
  simp only [Rb815ctx.delete, Link815.valid_iff, hl, hr]
  by_cases hleaf : l = .leaf
  · subst hleaf
    rw [if_neg (by simp [CTree.root?])]
    have hmk : Linked815 D ctx (C.fill (.mk .right b k r .leaf)) := h.toLinked815
    have hlist : (C.fill r).toList = C.before ++ (CTree.leaf.toList ++ r.toList) ++ C.after :=
      toList_fill ..
    have hneeds : (C.fill (.node b .leaf k r)).NeedsRepair k ↔ b = true ∧ r = .leaf ∧ C ≠ [] :=
      needsRepair_fill_one (d := .right) hkC
    rw [← hlist] at hA ⊢
    rw [hneeds]
    exact hmk.deleteOneChild hW hnull hA (fun z hz => hleftIn z (by
      simp only [keys_fill, CTree.keys, mem_add, mem_cons] at hz ⊢
      tauto)) hcard
  by_cases hrleaf : r = .leaf
  · subst hrleaf
    rw [if_neg (by simp [CTree.root?])]
    have hmk : Linked815 D ctx (C.fill (.mk .left b k l .leaf)) := h.toLinked815
    have hlist : (C.fill l).toList = C.before ++ (l.toList ++ CTree.leaf.toList) ++ C.after := by
      rw [toList_fill, CTree.toList.eq_def .leaf, List.append_nil]
    have hneeds : (C.fill (.node b l k .leaf)).NeedsRepair k ↔ b = true ∧ l = .leaf ∧ C ≠ [] :=
      needsRepair_fill_one (d := .left) hkC
    rw [← hlist] at hA ⊢
    rw [hneeds]
    exact hmk.deleteOneChild hW hnull hA (fun z hz => hleftIn z (by
      simp only [keys_fill, CTree.keys, mem_add, mem_cons] at hz ⊢
      tauto)) hcard
  -- the last node of the left subtree takes the place of the deleted one
  have hlroot := CTree.root?_eq_none.not.mpr hleaf
  rw [if_pos ⟨hlroot, CTree.root?_eq_none.not.mpr hrleaf⟩]
  obtain ⟨n, hn⟩ := ne_none_iff_exists'.mp hlroot
  have hnmem : n ∈ (C.fill (.node b l k r)).keys := by
    simp [CTree.keys, CTree.mem_keys_of_root? hn]
  obtain ⟨P, c2, x, L, rfl, hside, hdesc⟩ : ∃ (P : TPath ℕ) (c2 : Bool) (x : ℕ) (L : CTree ℕ),
      l = P.fill (.mk .right c2 x .leaf L) ∧ (∀ f ∈ P, f.side = .right) ∧
        ctx.view.descend .right fuel n = some x := by
    have hs := h.rep.shape
    rw [shape_fill] at hs
    rw [keys_fill, CTree.keys, card_add, card_cons, card_add] at hfuel
    exact Rep.descend hs.2.2.1 hn (by omega)
  have hnode : Linked815 D ctx (C.fill (.node b (P.fill (.node c2 L x .leaf)) k r)) := h.toLinked815
  obtain ⟨ctx1, hctx1, h1, he⟩ := hnode.exchange hW hrleaf
  have hmap : (C.fill (.node b (P.fill (.node c2 L x .leaf)) k r)).map (Equiv.swap k x) =
      C.fill (.node b (P.fill (.node c2 L k .leaf)) x r) :=
    Rep.map_swap_eq (d := .left) hnode.rep.nodup
  have hswap : C.fill (.node b (P.fill (.node c2 L k .leaf)) x r) =
      fill (P ++ ⟨.left, b, x, r⟩ :: C) (.mk .left c2 k L .leaf) := by
    rw [fill_append]
    rfl
  have hcard1 : (C.fill (.node b (P.fill (.node c2 L k .leaf)) x r)).keys.card ≤ fuel := by
    rw [← hmap, CTree.keys_map, card_map]
    exact hfuel
  have hlist : (fill (P ++ ⟨.left, b, x, r⟩ :: C) L).toList =
      C.before ++ ((P.fill (.mk .right c2 x .leaf L)).toList ++ r.toList) ++ C.after := by
    rw [toList_fill_last hside, toList_fill, after_eq_nil hside, CTree.toList_mk_right]
    simp [CTree.toList]
  have hnd1 := h1.rep.nodup
  rw [hswap] at h1 hcard1 hnd1
  rw [← hlist] at hA ⊢
  have hkeep : ∀ z ∈ (fill (P ++ ⟨.left, b, x, r⟩ :: C) L).keys,
      z ≠ k ∧ z ∈ (C.fill (.node b (P.fill (.node c2 L x .leaf)) k r)).keys := by
    intro z hz
    constructor
    · rintro rfl
      rw [keys_fill, CTree.keys_mk, add_cons, nodup_cons] at hnd1
      rw [keys_fill] at hz
      simp only [CTree.keys, add_zero] at hnd1
      exact hnd1.1 hz
    · rw [fill_append] at hz
      simp only [fill, Frame.fill, keys_fill, CTree.keys_mk, CTree.keys, mem_add, mem_cons] at hz ⊢
      tauto
  have hnull1 : NullStore D W ∨
      (fill (P ++ ⟨.left, b, x, r⟩ :: C) (.mk .left c2 k L .leaf)).IsRb := by
    rw [← hswap, ← hmap]
    exact hnull.imp_right fun hrb => hrb.map _
  have hlen1 : List.length (P ++ ⟨.left, b, x, r⟩ :: C) < fuel := by
    have := length_le_card (P ++ ⟨.left, b, x, r⟩ :: C)
    rw [keys_fill, CTree.keys_mk, card_add, card_cons] at hcard1
    omega
  obtain ⟨ctx', T', hctx', h', hT', hstep, hiff⟩ := h1.deleteOneChild hW hnull1 hA
    (fun z hz => he.left z (hkeep z hz).2 (hkeep z hz).1 _ (hleftIn z (hkeep z hz).2)) hlen1
  refine ⟨ctx', T', ?_, h', hT', ⟨he.toTreeStep.trans hstep.toTreeStep, fun hred => hstep.root ?_⟩,
    fun hb => ?_⟩
  · rw [Link815.block_of_ptr (hl.trans hn), h.descend_eq hnmem, hdesc]
    simp [hctx1, hctx']
  · rw [← hswap, ← hmap, CTree.isRed_map]
    exact hred
  · rw [← hswap, ← hmap] at hiff
    rw [hiff (hb.map _), needsRepair_fill_two hkC hside hrleaf]
    simp

end Pptk.Ipfrag
