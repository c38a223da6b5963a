import Pptk.Lib.CTree

/-!
# Red-black repair on paths

The repairs after an insertion and after a removal, on a path and the subtree at
its end, the way a bottom-up implementation walks the parent links.

* `insertFix` repairs a red node below a red one. It keeps the in-order sequence
  (`toList_insertFix`) and makes a red-black tree (`isRb_insertFix`).
* `deleteFix` repairs a subtree whose black height is one too small. It keeps
  the in-order sequence (`toList_deleteFix`) and makes a red-black tree
  (`isRb_deleteFix`). Its flag says whether the last rotation hands the colour of
  the parent to the sibling; without that the sequence is still kept and the root
  stays black (`isRed_deleteFix`).
* `NeedsRepair` says when a node cannot be taken out without a repair
  (`not_isRb_fill_leaf`, `needsRepair_fill_one`, `needsRepair_fill_two`).
-/

namespace Pptk.Lib

open TPath

variable {ι : Type*}

namespace CTree

/-- No red node has a red child and all paths down have `n` black nodes. -/
def Rb : ℕ → CTree ι → Prop
  | n, leaf => n = 0
  | n, node true l _ r => ∃ m, n = m + 1 ∧ Rb m l ∧ Rb m r
  | n, node false l _ r => (l.isRed = false ∧ r.isRed = false) ∧ Rb n l ∧ Rb n r

/-- A red-black tree with a black root. -/
def IsRb (t : CTree ι) : Prop := t.isRed = false ∧ ∃ n, Rb n t

@[simp] theorem rb_leaf (n : ℕ) : Rb n (leaf : CTree ι) ↔ n = 0 := Iff.rfl

theorem rb_mk_black (d : Side) (n : ℕ) (k : ι) (near far : CTree ι) :
    Rb n (mk d true k near far) ↔ ∃ m, n = m + 1 ∧ Rb m near ∧ Rb m far := by
  cases d
  · exact Iff.rfl
  · simp only [mk, Rb, and_comm (a := Rb _ far)]

theorem rb_mk_red (d : Side) (n : ℕ) (k : ι) (near far : CTree ι) :
    Rb n (mk d false k near far) ↔
      (near.isRed = false ∧ far.isRed = false) ∧ Rb n near ∧ Rb n far := by
  cases d
  · exact Iff.rfl
  · simp only [mk, Rb]
    tauto

@[simp] theorem rb_succ_mk_black (d : Side) (n : ℕ) (k : ι) (near far : CTree ι) :
    Rb (n + 1) (mk d true k near far) ↔ Rb n near ∧ Rb n far := by
  rw [rb_mk_black]
  constructor
  · rintro ⟨m, hm, h⟩
    obtain rfl : n = m := by omega
    exact h
  · exact fun h => ⟨n, rfl, h⟩

variable {n : ℕ} {t : CTree ι}

theorem Rb.ne_leaf (h : Rb (n + 1) t) : t ≠ leaf := by
  rintro rfl
  simp at h

theorem Rb.exists_mk_black (d : Side) (h : Rb (n + 1) t) (hr : t.isRed = false) :
    ∃ k near far, t = mk d true k near far ∧ Rb n near ∧ Rb n far := by
  obtain ⟨b, k, near, far, rfl⟩ := exists_mk d h.ne_leaf
  obtain rfl : b = true := by simpa using hr
  exact ⟨k, near, far, rfl, (rb_succ_mk_black ..).mp h⟩

theorem Rb.exists_mk_red (d : Side) (h : Rb n t) (hr : t.isRed = true) :
    ∃ k near far, t = mk d false k near far ∧ (near.isRed = false ∧ far.isRed = false) ∧
      Rb n near ∧ Rb n far := by
  obtain ⟨k, near, far, rfl⟩ := eq_mk_of_isRed d hr
  exact ⟨k, near, far, rfl, (rb_mk_red ..).mp h⟩

theorem Rb.blacken (h : Rb n t) (hr : t.isRed = true) : Rb (n + 1) t.blacken := by
  obtain ⟨k, near, far, rfl, _, h'⟩ := h.exists_mk_red .left hr
  rw [blacken_mk, rb_succ_mk_black]
  exact h'

/-- Some child of the root is red. -/
def hasRedChild : CTree ι → Bool
  | leaf => false
  | node _ l _ r => l.isRed || r.isRed

@[simp] theorem hasRedChild_mk (d : Side) (b : Bool) (k : ι) (near far : CTree ι) :
    (mk d b k near far).hasRedChild = (near.isRed || far.isRed) := by
  cases d
  · rfl
  · exact Bool.or_comm _ _

end CTree

open CTree

namespace TPath

/-- The frame next to the place reached is black. -/
def allowsRed : TPath ι → Bool
  | [] => false
  | f :: _ => f.black

/-- The top frame is black. -/
def topBlack : TPath ι → Bool
  | [] => true
  | [f] => f.black
  | _ :: f :: up => topBlack (f :: up)

/-- A tree of black height `n` fits at the place reached. -/
def PathRb : TPath ι → ℕ → Prop
  | [], _ => True
  | f :: up, n =>
    Rb n f.sib ∧
      if f.black then PathRb up (n + 1)
      else f.sib.isRed = false ∧ allowsRed up = true ∧ PathRb up n

theorem isRed_fill_cons (f : Frame ι) (up : TPath ι) (t : CTree ι) :
    (fill (f :: up) t).isRed = !topBlack (f :: up) := by
  induction up generalizing f t with
  | nil => exact isRed_mk ..
  | cons g up ih => exact ih g (f.fill t)

theorem isRed_fill {p : TPath ι} {t : CTree ι} (hp : topBlack p = true)
    (ht : p = [] → t.isRed = false) : (fill p t).isRed = false := by
  cases p with
  | nil => exact ht rfl
  | cons f up => rw [isRed_fill_cons, hp]; rfl

theorem topBlack_tail {f : Frame ι} {up : TPath ι} (h : topBlack (f :: up) = true) :
    topBlack up = true := by
  cases up with
  | nil => rfl
  | cons g up => exact h

/-- A subtree of the right black height completes a path. -/
theorem isRb_fill {p : TPath ι} {n : ℕ} {t : CTree ι} (hp : PathRb p n) (ht : Rb n t)
    (hr : t.isRed = true → allowsRed p = true) : IsRb (fill p t) := by
  induction p generalizing n t with
  | nil =>
    refine ⟨?_, n, ht⟩
    by_contra hred
    simp [allowsRed] at hr
    exact hred hr
  | cons f up ih =>
    obtain ⟨side, b, k, sib⟩ := f
    cases b with
    | true =>
      obtain ⟨h1, h2⟩ := hp
      exact ih h2 ((rb_succ_mk_black ..).mpr ⟨ht, h1⟩) fun h => by simp [Frame.fill] at h
    | false =>
      obtain ⟨h1, h2, h3, h4⟩ := hp
      have hred : t.isRed = false := by
        by_contra hc
        rw [Bool.not_eq_false] at hc
        simp [allowsRed] at hr
        rw [hr] at hc
        simp at hc
      exact ih h4 ((rb_mk_red ..).mpr ⟨⟨hred, h2⟩, ht, h1⟩) fun _ => h3

theorem PathRb.of_red {f g : Frame ι} {up : TPath ι} {n : ℕ} (h : PathRb (f :: g :: up) n)
    (hf : ¬f.black = true) : Rb n f.sib ∧ f.sib.isRed = false ∧ Rb n g.sib ∧ PathRb up (n + 1) := by
  obtain ⟨h1, h⟩ := h
  rw [if_neg hf] at h
  obtain ⟨h2, h3, h4, h⟩ := h
  rw [if_pos (show g.black = true from h3)] at h
  exact ⟨h1, h2, h4, h⟩

end TPath

/-! ## After an insertion -/

/-- Repairs the path above the red node `k` with subtrees `l` and `r`. -/
def insertFix : TPath ι → CTree ι → ι → CTree ι → CTree ι
  | [], l, k, r => node true l k r
  | [f], l, k, r => f.fill (node false l k r)
  | f :: g :: up, l, k, r =>
    if f.black then fill (f :: g :: up) (node false l k r)
    else if g.sib.isRed then
      -- recolouring moves the red node two levels up
      insertFix up
        (g.side.pick ({ f with black := true }.fill (node false l k r)) g.sib.blacken) g.key
        (g.side.pick g.sib.blacken ({ f with black := true }.fill (node false l k r)))
    else if f.side = g.side then
      fill up (mk g.side true f.key (node false l k r) (mk g.side false g.key f.sib g.sib))
    else
      fill up (mk g.side true k (mk g.side false f.key f.sib (g.side.pick l r))
        (mk g.side false g.key (g.side.pick r l) g.sib))

/-- The repair after an insertion keeps the order. -/
theorem toList_insertFix (p : TPath ι) (l : CTree ι) (k : ι) (r : CTree ι) :
    (insertFix p l k r).toList = (p.fill (node false l k r)).toList := by
  induction p, l, k, r using insertFix.induct with
  | case1 l k r => rfl
  | case2 f l k r => rfl
  | case3 f g up l k r hf => rw [insertFix, if_pos hf]
  | case4 f g up l k r hf hg ih =>
    rw [insertFix, if_neg hf, if_pos hg, ih, fill_cons, fill_cons, ← mk_eq_node]
    simp only [toList_fill]
    congr 2
    exact toList_mk_congr _ (toList_mk_congr _ rfl rfl) (toList_blacken _)
  | case5 f g up l k r hf hg hs =>
    rw [insertFix, if_neg hf, if_neg hg, if_pos hs, fill_cons, fill_cons]
    simp only [toList_fill, Frame.fill]
    congr 2
    rw [hs]
    cases g.side <;> simp [mk, toList]
  | case6 f g up l k r hf hg hs =>
    rw [insertFix, if_neg hf, if_neg hg, if_neg hs, fill_cons, fill_cons]
    simp only [toList_fill, Frame.fill]
    congr 2
    rw [Side.eq_other_of_ne hs]
    cases g.side <;> simp [mk, toList, Side.other, Side.pick]

variable {p : TPath ι} {l r : CTree ι} {n : ℕ}

theorem isRed_insertFix {k : ι} (hp : p.topBlack = true) : (insertFix p l k r).isRed = false := by
  induction p, l, k, r using insertFix.induct with
  | case1 l k r => rfl
  | case2 f l k r =>
    rw [insertFix, ← fill_nil (f.fill _), ← fill_cons, isRed_fill_cons, hp]; rfl
  | case3 f g up l k r hf => rw [insertFix, if_pos hf, isRed_fill_cons, hp]; rfl
  | case4 f g up l k r hf hg ih =>
    rw [insertFix, if_neg hf, if_pos hg]
    exact ih (topBlack_tail (topBlack_tail hp))
  | case5 f g up l k r hf hg hs =>
    rw [insertFix, if_neg hf, if_neg hg, if_pos hs]
    exact isRed_fill (topBlack_tail (topBlack_tail hp)) fun _ => by simp
  | case6 f g up l k r hf hg hs =>
    rw [insertFix, if_neg hf, if_neg hg, if_neg hs]
    exact isRed_fill (topBlack_tail (topBlack_tail hp)) fun _ => by simp

/-- A red node of black height `n` at a place for black height `n`: the repair leaves a red-black
tree. -/
theorem isRb_insertFix {k : ι} (hp : p.PathRb n) (hl : Rb n l) (hr : Rb n r)
    (hlr : l.isRed = false ∧ r.isRed = false) : IsRb (insertFix p l k r) := by
  induction p, l, k, r using insertFix.induct generalizing n with
  | case1 l k r => exact ⟨rfl, n + 1, n, rfl, hl, hr⟩
  | case2 f l k r =>
    refine isRb_fill (p := [f]) hp (⟨hlr, hl, hr⟩ : Rb n (node false l k r)) fun _ => ?_
    by_contra hf
    rw [allowsRed, Bool.not_eq_true] at hf
    obtain ⟨_, h⟩ := hp
    simp [hf, allowsRed] at h
  | case3 f g up l k r hf =>
    rw [insertFix, if_pos hf]
    exact isRb_fill hp (⟨hlr, hl, hr⟩ : Rb n (node false l k r)) fun _ => hf
  | case4 f g up l k r hf hg ih =>
    rw [insertFix, if_neg hf, if_pos hg]
    obtain ⟨h1, _, h3, h4⟩ := hp.of_red hf
    have hnear : Rb (n + 1) ({ f with black := true }.fill (node false l k r)) :=
      (rb_succ_mk_black ..).mpr ⟨⟨hlr, hl, hr⟩, h1⟩
    have hfar : Rb (n + 1) g.sib.blacken := h3.blacken hg
    have hnr : ({ f with black := true }.fill (node false l k r)).isRed = false := by
      simp [Frame.fill]
    have hfr := isRed_blacken g.sib
    cases hside : g.side <;> rw [hside] at ih
    · exact ih h4 hnear hfar ⟨hnr, hfr⟩
    · exact ih h4 hfar hnear ⟨hfr, hnr⟩
  | case5 f g up l k r hf hg hs =>
    rw [insertFix, if_neg hf, if_neg hg, if_pos hs]
    obtain ⟨h1, hfs, h3, h4⟩ := hp.of_red hf
    rw [Bool.not_eq_true] at hg
    refine isRb_fill h4 ((rb_succ_mk_black ..).mpr ⟨⟨hlr, hl, hr⟩, ?_⟩) fun h => by simp at h
    exact (rb_mk_red ..).mpr ⟨⟨hfs, hg⟩, h1, h3⟩
  | case6 f g up l k r hf hg hs =>
    rw [insertFix, if_neg hf, if_neg hg, if_neg hs]
    obtain ⟨h1, hfs, h3, h4⟩ := hp.of_red hf
    rw [Bool.not_eq_true] at hg
    refine isRb_fill h4 ((rb_succ_mk_black ..).mpr ⟨?_, ?_⟩) fun h => by simp at h
    · refine (rb_mk_red ..).mpr ⟨⟨hfs, ?_⟩, h1, ?_⟩ <;> cases g.side <;> simp [Side.pick, *]
    · refine (rb_mk_red ..).mpr ⟨⟨?_, hg⟩, ?_, h3⟩ <;> cases g.side <;> simp [Side.pick, *]

/-! ## After a removal -/

/-- Case 6: the sibling takes the place of its parent, which moves down beside the short subtree.
With `swap` the sibling also takes the parent's colour and the parent becomes black. -/
def deleteCase6 (swap : Bool) (f : Frame ι) (up : TPath ι) (t : CTree ι) : CTree ι :=
  match f.sib with
  | .leaf => fill (f :: up) t
  | .node b l s r =>
    fill up (mk f.side (if swap then f.black else b) s
      (mk f.side (if swap then true else f.black) f.key t (f.side.pick l r))
      (f.side.pick r l).blacken)

/-- Case 5: a black sibling whose only red child is the near one is rotated, so that the far child
is red. -/
def deleteCase5 (f : Frame ι) : Frame ι :=
  match f.sib with
  | .leaf => f
  | .node b l s r =>
    if b && !(f.side.pick r l).isRed then
      match f.side.pick l r with
      | .node false nl n nr =>
        ⟨f.side, f.black, f.key, mk f.side true n (f.side.pick nl nr)
          (mk f.side false s (f.side.pick nr nl) (f.side.pick r l))⟩
      | _ => f
    else f

/-- Case 4: a red parent changes colours with a black sibling without red children. -/
def deleteCase4 (swap : Bool) (f : Frame ι) (up : TPath ι) (t : CTree ι) : CTree ι :=
  if !f.black && !f.sib.isRed && !f.sib.hasRedChild then
    fill up ({ f with black := true, sib := f.sib.redden }.fill t)
  else deleteCase6 swap (deleteCase5 f) up t

/-- Repairs the path above a subtree whose black height is one too small. -/
def deleteFix (swap : Bool) : TPath ι → CTree ι → CTree ι
  | [], t => t
  | f :: up, t =>
    match f.sib with
    | .node false l s r =>
      -- case 2: a red sibling is rotated above the parent
      deleteCase4 swap ⟨f.side, false, f.key, f.side.pick l r⟩
        (⟨f.side, true, s, f.side.pick r l⟩ :: up) t
    | sib =>
      -- case 3: everything around is black, and the sibling gets short as well
      if f.black && !sib.hasRedChild then deleteFix swap up ({ f with sib := sib.redden }.fill t)
      else deleteCase4 swap f up t

section Equations

variable (swap fb b : Bool) (d : Side) (fk s : ι) (near far : CTree ι) (up : TPath ι) (t : CTree ι)

theorem deleteCase6_mk :
    deleteCase6 swap ⟨d, fb, fk, mk d b s near far⟩ up t =
      fill up (mk d (if swap then fb else b) s
        (mk d (if swap then true else fb) fk t near) far.blacken) := by
  cases d <;> rfl

/-- Case 5 rotates a red near nephew into the place of the sibling. -/
theorem deleteCase5_rotates (n : ι) (nn nf : CTree ι) (hfar : far.isRed = false) :
    deleteCase5 ⟨d, fb, fk, mk d true s (mk d false n nn nf) far⟩ =
      ⟨d, fb, fk, mk d true n nn (mk d false s nf far)⟩ := by
  cases d <;> simp [deleteCase5, mk, Side.pick, hfar]

theorem deleteCase5_keeps (h : b = false ∨ far.isRed = true ∨ near.isRed = false) :
    deleteCase5 ⟨d, fb, fk, mk d b s near far⟩ = ⟨d, fb, fk, mk d b s near far⟩ := by
  cases near with
  | leaf => cases d <;> simp [deleteCase5, mk, Side.pick]
  | node nb nl n nr =>
    cases nb with
    | true => cases d <;> simp [deleteCase5, mk, Side.pick]
    | false =>
      have hc : (b && !far.isRed) = false := by
        rcases h with h | h | h <;> simp [isRed] at h ⊢ <;> simp [h]
      cases d <;> simp [deleteCase5, mk, Side.pick, hc]

/-- Case 2: a red sibling becomes the parent of the parent. -/
theorem deleteFix_cons_red :
    deleteFix swap (⟨d, fb, fk, mk d false s near far⟩ :: up) t =
      deleteCase4 swap ⟨d, false, fk, near⟩ (⟨d, true, s, far⟩ :: up) t := by
  cases d <;> rfl

/-- Cases 3 and 4, by the colours of the parent and of the nephews. -/
theorem deleteFix_cons_black {f : Frame ι} (hs : f.sib.isRed = false) :
    deleteFix swap (f :: up) t =
      if f.black && !f.sib.hasRedChild then
        deleteFix swap up ({ f with sib := f.sib.redden }.fill t)
      else deleteCase4 swap f up t := by
  obtain ⟨d, fb, fk, sib⟩ := f
  cases sib with
  | leaf => rfl
  | node b l s r =>
    obtain rfl : b = true := by simpa [isRed] using hs
    rfl

end Equations

/-! ### The in-order sequence -/

variable {t : CTree ι} {κ : Type*}

theorem toList_fill_congr (p : TPath ι) {t' : CTree ι} (h : t.toList = t'.toList) :
    (p.fill t).toList = (p.fill t').toList := by
  rw [toList_fill, toList_fill, h]

theorem toList_deleteCase6 (swap : Bool) (f : Frame ι) (up : TPath ι) (t : CTree ι) :
    (deleteCase6 swap f up t).toList = (fill (f :: up) t).toList := by
  obtain ⟨d, fb, fk, sib⟩ := f
  by_cases hs : sib = leaf
  · subst hs; rfl
  · obtain ⟨b, s, near, far, rfl⟩ := exists_mk d hs
    rw [deleteCase6_mk, fill_cons, Frame.fill]
    refine toList_fill_congr up ?_
    rw [toList_rotate d _ _ fb b]
    exact toList_mk_congr d rfl (toList_mk_congr d rfl (toList_blacken far))

theorem deleteCase5_spec (f : Frame ι) :
    ∃ sib, deleteCase5 f = { f with sib := sib } ∧ sib.toList = f.sib.toList := by
  obtain ⟨d, fb, fk, sib⟩ := f
  by_cases hs : sib = leaf
  · subst hs; exact ⟨leaf, rfl, rfl⟩
  · obtain ⟨b, s, near, far, rfl⟩ := exists_mk d hs
    by_cases hk : b = false ∨ far.isRed = true ∨ near.isRed = false
    · exact ⟨_, deleteCase5_keeps fb b d fk s near far hk, rfl⟩
    · simp only [not_or, Bool.not_eq_false, Bool.not_eq_true] at hk
      obtain ⟨rfl, hfar, hnear⟩ := hk
      obtain ⟨n, nn, nf, rfl⟩ := eq_mk_of_isRed d hnear
      exact ⟨_, deleteCase5_rotates fb d fk s far n nn nf hfar, (toList_rotate ..).symm⟩

/-- After case 5 the far child of a black sibling with a red child is red. -/
theorem deleteCase5_far_red (fb : Bool) (d : Side) (fk s : ι) {near far : CTree ι}
    (h : (near.isRed || far.isRed) = true) :
    ∃ s' near' far', deleteCase5 ⟨d, fb, fk, mk d true s near far⟩ =
      ⟨d, fb, fk, mk d true s' near' far'⟩ ∧ far'.isRed = true := by
  by_cases hfar : far.isRed = true
  · exact ⟨s, near, far, deleteCase5_keeps _ _ _ _ _ _ _ (.inr (.inl hfar)), hfar⟩
  · rw [Bool.not_eq_true] at hfar
    obtain ⟨n, nn, nf, rfl⟩ := eq_mk_of_isRed d (by simpa [hfar] using h)
    exact ⟨_, _, _, deleteCase5_rotates _ _ _ _ _ _ _ _ hfar, by simp⟩

theorem toList_deleteCase4 (swap : Bool) (f : Frame ι) (up : TPath ι) (t : CTree ι) :
    (deleteCase4 swap f up t).toList = (fill (f :: up) t).toList := by
  unfold deleteCase4
  split_ifs with hc
  · exact toList_fill_congr up (toList_mk_congr _ rfl (toList_redden _))
  · obtain ⟨sib, h1, h2⟩ := deleteCase5_spec f
    rw [toList_deleteCase6, h1]
    exact toList_fill_congr up (toList_mk_congr _ rfl h2)

/-- The repair after a deletion keeps the order. -/
theorem toList_deleteFix (swap : Bool) (p : TPath ι) (t : CTree ι) :
    (deleteFix swap p t).toList = (p.fill t).toList := by
  induction p generalizing t with
  | nil => rfl
  | cons f up ih =>
    obtain ⟨d, fb, fk, sib⟩ := f
    cases hs : sib.isRed with
    | true =>
      obtain ⟨s, near, far, rfl⟩ := eq_mk_of_isRed d hs
      rw [deleteFix_cons_red, toList_deleteCase4]
      exact toList_fill_congr up (toList_rotate ..)
    | false =>
      rw [deleteFix_cons_black swap up t hs]
      split_ifs with hc
      · rw [ih]
        exact toList_fill_congr up (toList_mk_congr _ rfl (toList_redden _))
      · exact toList_deleteCase4 ..

/-! ### The colour of the root -/

/-- Case 4 keeps a black root, provided a parent at the root has a black sibling. -/
theorem isRed_deleteCase4 {swap : Bool} {f : Frame ι} {up : TPath ι}
    (hp : topBlack (f :: up) = true) (hs : up = [] → f.sib.isRed = false) :
    (deleteCase4 swap f up t).isRed = false := by
  have hup := topBlack_tail hp
  obtain ⟨d, fb, fk, sib⟩ := f
  unfold deleteCase4
  split_ifs with hc
  · exact isRed_fill hup fun _ => by simp [Frame.fill]
  · by_cases hleaf : sib = leaf
    · subst hleaf
      exact isRed_fill (p := ⟨d, fb, fk, leaf⟩ :: up) hp (by simp)
    · obtain ⟨b, s, near, far, rfl⟩ := exists_mk d hleaf
      have hb : up = [] → fb = true ∧ b = true := by
        rintro rfl
        exact ⟨hp, by simpa using hs rfl⟩
      by_cases hk : b = false ∨ far.isRed = true ∨ near.isRed = false
      · rw [deleteCase5_keeps fb b d fk s near far hk, deleteCase6_mk]
        refine isRed_fill hup fun he => ?_
        obtain ⟨rfl, rfl⟩ := hb he
        simp
      · simp only [not_or, Bool.not_eq_false, Bool.not_eq_true] at hk
        obtain ⟨rfl, hfar, hnear⟩ := hk
        obtain ⟨n, nn, nf, rfl⟩ := eq_mk_of_isRed d hnear
        rw [deleteCase5_rotates fb d fk s far n nn nf hfar, deleteCase6_mk]
        refine isRed_fill hup fun he => ?_
        obtain ⟨rfl, -⟩ := hb he
        simp

theorem isRed_deleteFix {swap : Bool} (hp : p.topBlack = true) (ht : p = [] → t.isRed = false) :
    (deleteFix swap p t).isRed = false := by
  induction p generalizing t with
  | nil => exact ht rfl
  | cons f up ih =>
    obtain ⟨d, fb, fk, sib⟩ := f
    cases hs : sib.isRed with
    | true =>
      obtain ⟨s, near, far, rfl⟩ := eq_mk_of_isRed d hs
      rw [deleteFix_cons_red]
      refine isRed_deleteCase4 ?_ (by simp)
      cases up with
      | nil => rfl
      | cons g up => exact hp
    | false =>
      rw [deleteFix_cons_black swap up t hs]
      split_ifs with hc
      · simp only [Bool.and_eq_true] at hc
        exact ih (topBlack_tail hp) fun _ => by simp [Frame.fill, hc.1]
      · exact isRed_deleteCase4 hp fun _ => hs

/-! ### Balance -/

/-- Cases 4 to 6 end the repair: the sibling is black, and the parent is red or the sibling has a
red child. -/
theorem isRb_deleteCase4 {f : Frame ι} {up : TPath ι} (hp : TPath.PathRb (f :: up) (n + 1))
    (hs : f.sib.isRed = false) (hc : f.black = false ∨ f.sib.hasRedChild = true) (ht : Rb n t) :
    IsRb (deleteCase4 true f up t) := by
  obtain ⟨d, fb, fk, sib⟩ := f
  obtain ⟨h1, hup⟩ := hp
  obtain ⟨s, near, far, rfl, hn, hf⟩ := h1.exists_mk_black d hs
  simp only [hasRedChild_mk] at hc
  -- the subtree that replaces the parent has its colour and black height
  have hclose : ∀ s near far, Rb n near → Rb (n + 1) far → far.isRed = false →
      IsRb (fill up (mk d fb s (mk d true fk t near) far)) := by
    intro s near far hnear hfar hfr
    have hpt : Rb (n + 1) (mk d true fk t near) := (rb_succ_mk_black ..).mpr ⟨ht, hnear⟩
    cases fb with
    | true =>
      exact isRb_fill hup ((rb_succ_mk_black ..).mpr ⟨hpt, hfar⟩) fun h => by simp at h
    | false =>
      obtain ⟨_, h3, h4⟩ := hup
      exact isRb_fill h4 ((rb_mk_red ..).mpr ⟨⟨by simp, hfr⟩, hpt, hfar⟩) fun _ => h3
  unfold deleteCase4
  split_ifs with h4
  · simp only [hasRedChild_mk, Bool.and_eq_true, Bool.not_eq_true', Bool.or_eq_false_iff] at h4
    obtain ⟨⟨rfl, -⟩, hnr, hfr⟩ := h4
    obtain ⟨_, _, hup⟩ := hup
    refine isRb_fill hup ?_ fun h => by simp [Frame.fill] at h
    exact (rb_succ_mk_black ..).mpr ⟨ht, by
      rw [redden_mk, rb_mk_red]; exact ⟨⟨hnr, hfr⟩, hn, hf⟩⟩
  · by_cases hfr : far.isRed = true
    · rw [deleteCase5_keeps _ _ _ _ _ _ _ (.inr (.inl hfr)), deleteCase6_mk]
      exact hclose s near far.blacken hn (hf.blacken hfr) (isRed_blacken far)
    · rw [Bool.not_eq_true] at hfr
      have hnr : near.isRed = true := by
        cases hnr : near.isRed with
        | true => rfl
        | false =>
          have hb : fb = false := by simpa [hnr, hfr] using hc
          simp [hb, hnr, hfr] at h4
      obtain ⟨k, nn, nf, rfl, ⟨_, hnfr⟩, hnn, hnf⟩ := hn.exists_mk_red d hnr
      rw [deleteCase5_rotates _ _ _ _ _ _ _ _ hfr, deleteCase6_mk, blacken_mk]
      exact hclose k nn _ hnn ((rb_succ_mk_black ..).mpr ⟨hnf, hf⟩) (by simp)

/-- Putting a black tree that is one short of black height and repairing gives a red-black tree. -/
theorem isRb_deleteFix (hp : p.PathRb (n + 1)) (ht : Rb n t) (htr : t.isRed = false) :
    IsRb (deleteFix true p t) := by
  induction p generalizing n t with
  | nil => exact ⟨htr, n, ht⟩
  | cons f up ih =>
    obtain ⟨d, fb, fk, sib⟩ := f
    cases hs : sib.isRed with
    | true =>
      obtain ⟨h1, hup⟩ := hp
      obtain ⟨s, near, far, rfl, ⟨hnr, hfr⟩, hn, hf⟩ := h1.exists_mk_red d hs
      rw [deleteFix_cons_red]
      -- the parent of a red sibling is black
      obtain rfl : fb = true := by
        cases fb with
        | true => rfl
        | false => exact absurd hup.1 (by simp)
      exact isRb_deleteCase4 ⟨hn, hnr, rfl, hf, hup⟩ hnr (.inl rfl) ht
    | false =>
      rw [deleteFix_cons_black true up t hs]
      split_ifs with hc
      · simp only [Bool.and_eq_true, Bool.not_eq_true'] at hc
        obtain ⟨rfl, hrc⟩ := hc
        obtain ⟨h1, hup⟩ := hp
        obtain ⟨s, near, far, rfl, hn, hf⟩ := h1.exists_mk_black d hs
        simp only [hasRedChild_mk, Bool.or_eq_false_iff] at hrc
        refine ih hup ?_ (by simp [Frame.fill])
        exact (rb_succ_mk_black ..).mpr ⟨ht, by
          rw [redden_mk, rb_mk_red]; exact ⟨hrc, hn, hf⟩⟩
      · simp only [Bool.and_eq_true, Bool.not_eq_true', not_and, Bool.not_eq_false] at hc
        refine isRb_deleteCase4 hp hs ?_ ht
        cases fb with
        | true => exact .inr (hc rfl)
        | false => exact .inl rfl

/-! ## A node with at most one child is taken out -/

/-- The tree around `t` after a node of colour `black` between them is gone. -/
def removeFix (swap : Bool) (p : TPath ι) (black : Bool) (t : CTree ι) : CTree ι :=
  if black then
    if t.isRed then p.fill t.blacken else deleteFix swap p t
  else p.fill t

theorem toList_removeFix (swap : Bool) (p : TPath ι) (black : Bool) (t : CTree ι) :
    (removeFix swap p black t).toList = (p.fill t).toList := by
  unfold removeFix
  split_ifs
  · exact toList_fill_congr p (toList_blacken t)
  · exact toList_deleteFix ..
  · rfl

/-- The path and the subtree of a red-black tree. -/
theorem TPath.exists_pathRb (h : IsRb (p.fill t)) :
    ∃ n, p.PathRb n ∧ Rb n t ∧ (t.isRed = true → p.allowsRed = true) := by
  induction p generalizing t with
  | nil =>
    obtain ⟨hr, n, hn⟩ := h
    exact ⟨n, trivial, hn, fun ht => by rw [fill_nil, ht] at hr; simp at hr⟩
  | cons f up ih =>
    obtain ⟨n, hup, hn, hr⟩ := ih h
    obtain ⟨d, b, k, sib⟩ := f
    cases b with
    | true =>
      cases n with
      | zero => simp [Frame.fill, rb_mk_black] at hn
      | succ n =>
        obtain ⟨h1, h2⟩ := (rb_succ_mk_black ..).mp hn
        exact ⟨n, ⟨h2, hup⟩, h1, fun _ => rfl⟩
    | false =>
      obtain ⟨⟨ht, hs⟩, h1, h2⟩ := (rb_mk_red ..).mp hn
      exact ⟨n, ⟨h2, hs, hr (by simp [Frame.fill]), hup⟩, h1, fun h => by rw [ht] at h; simp at h⟩

/-- Removing a node with one subtree gives a red-black tree. -/
theorem isRb_removeFix {d : Side} {black : Bool} {k : ι} (h : IsRb (p.fill (mk d black k t leaf))) :
    IsRb (removeFix true p black t) := by
  obtain ⟨n, hp, hn, _⟩ := exists_pathRb h
  cases black with
  | false =>
    obtain ⟨⟨ht, _⟩, h1, _⟩ := (rb_mk_red ..).mp hn
    exact isRb_fill hp h1 fun h => by rw [ht] at h; simp at h
  | true =>
    cases n with
    | zero => simp [rb_mk_black] at hn
    | succ n =>
      obtain ⟨h1, h2⟩ := (rb_succ_mk_black ..).mp hn
      unfold removeFix
      rw [if_pos rfl]
      split_ifs with hr
      · exact isRb_fill hp (h1.blacken hr) fun h => by simp at h
      · rw [Bool.not_eq_true] at hr
        exact isRb_deleteFix hp h1 hr

theorem CTree.isRed_map (g : ι → κ) (t : CTree ι) : (t.map g).isRed = t.isRed := by
  cases t <;> rfl

theorem CTree.Rb.map (g : ι → κ) (h : Rb n t) : Rb n (t.map g) := by
  induction t generalizing n with
  | leaf => exact h
  | node b l k r ihl ihr =>
    cases b with
    | true =>
      obtain ⟨m, rfl, h1, h2⟩ := h
      exact ⟨m, rfl, ihl h1, ihr h2⟩
    | false =>
      obtain ⟨⟨hl, hr⟩, h1, h2⟩ := h
      exact ⟨⟨by rw [isRed_map, hl], by rw [isRed_map, hr]⟩, ihl h1, ihr h2⟩

theorem isRed_fill_rekey (p : TPath ι) (b : Bool) (l r : CTree ι) (k k' : ι) :
    (p.fill (.node b l k' r)).isRed = (p.fill (.node b l k r)).isRed := by
  cases p with
  | nil => rfl
  | cons f up => rw [isRed_fill_cons, isRed_fill_cons]

theorem CTree.IsRb.rekey {b : Bool} {k : ι} (h : IsRb (p.fill (.node b l k r))) (k' : ι) :
    IsRb (p.fill (.node b l k' r)) := by
  obtain ⟨n, hp, hn, hr⟩ := exists_pathRb h
  refine isRb_fill hp ?_ hr
  cases b <;> exact hn

theorem CTree.IsRb.map (g : ι → κ) (h : IsRb t) : IsRb (t.map g) := by
  obtain ⟨h1, n, h2⟩ := h
  exact ⟨by rw [isRed_map, h1], n, h2.map g⟩

/-! ## A node is taken out without a repair -/

namespace CTree

/-- The tree has no node. -/
def isLeaf : CTree ι → Bool
  | leaf => true
  | node .. => false

/-- The last node in order is black and has no child. -/
def bareLast : CTree ι → Bool
  | leaf => false
  | node b l _ r => if r.isLeaf then b && l.isLeaf else r.bareLast

/-- A black node without children gives up its place when `k` is taken out. This is `k`, or the last
node of its left subtree if `k` has two children. -/
def leavesBare [DecidableEq ι] (k : ι) : CTree ι → Bool
  | leaf => false
  | node b l x r =>
    if x = k then if l.isLeaf then r.isLeaf && b else !r.isLeaf && l.bareLast
    else l.leavesBare k || r.leavesBare k

/-- Taking out `k` makes paths down with fewer black nodes than others. -/
def NeedsRepair [DecidableEq ι] (k : ι) (t : CTree ι) : Prop :=
  1 < t.toList.length ∧ t.leavesBare k = true

instance needsRepairDecidable [DecidableEq ι] (k : ι) (t : CTree ι) : Decidable (NeedsRepair k t) :=
  inferInstanceAs (Decidable (_ ∧ _))

variable {t : CTree ι}

theorem isLeaf_eq_true : t.isLeaf = true ↔ t = leaf := by
  cases t <;> simp [isLeaf]

theorem isLeaf_eq_false : t.isLeaf = false ↔ t ≠ leaf := by
  cases t <;> simp [isLeaf]

/-- All paths down have the same number of black nodes, so there is one such number. -/
theorem Rb.unique {n m : ℕ} (h : Rb n t) (h' : Rb m t) : n = m := by
  induction t generalizing n m with
  | leaf => exact Eq.trans h (Eq.symm h')
  | node b l k r ihl _ =>
    cases b with
    | true =>
      obtain ⟨n', rfl, hl, _⟩ := h
      obtain ⟨m', rfl, hl', _⟩ := h'
      rw [ihl hl hl']
    | false => exact ihl h.2.1 h'.2.1

theorem leavesBare_of_notMem [DecidableEq ι] {k : ι} (h : k ∉ t.keys) : t.leavesBare k = false := by
  induction t with
  | leaf => rfl
  | node b l x r ihl ihr =>
    simp only [keys, Multiset.mem_cons, Multiset.mem_add, not_or] at h
    rw [leavesBare, if_neg (Ne.symm h.1), ihl h.2.1, ihr h.2.2]
    rfl

end CTree

/-- Below another node, a black node without children cannot be left out. -/
theorem not_isRb_fill_leaf {d : Side} {k : ι} (hp : p ≠ [])
    (h : IsRb (p.fill (mk d true k leaf leaf))) : ¬IsRb (p.fill leaf) := by
  intro h'
  obtain ⟨n, hn, hk, -⟩ := exists_pathRb h
  obtain ⟨m, hm, hl, -⟩ := exists_pathRb h'
  obtain ⟨n', rfl, -⟩ := (rb_mk_black ..).mp hk
  obtain rfl : m = 0 := hl
  obtain ⟨f, up, rfl⟩ := List.exists_cons_of_ne_nil hp
  -- the other subtree of the lowest frame has both black heights
  exact absurd (hn.1.unique hm.1) (by simp)

namespace TPath

variable {t : CTree ι} {p : TPath ι}

theorem bareLast_fill (hp : ∀ f ∈ p, f.side = .right) (ht : t ≠ leaf) :
    (p.fill t).bareLast = t.bareLast := by
  induction p generalizing t with
  | nil => rfl
  | cons f up ih =>
    have hf : f.fill t = node f.black f.sib f.key t := by
      rw [Frame.fill, hp f (by simp)]
      rfl
    rw [fill_cons, hf, ih (fun g hg => hp g (by simp [hg])) (by simp), bareLast,
      if_neg (by rw [isLeaf_eq_true]; exact ht)]

variable [DecidableEq ι] {k : ι}

theorem leavesBare_fill (hk : k ∉ p.keys) (t : CTree ι) :
    (p.fill t).leavesBare k = t.leavesBare k := by
  induction p generalizing t with
  | nil => rfl
  | cons f up ih =>
    simp only [keys, Multiset.mem_cons, Multiset.mem_add, not_or] at hk
    rw [fill_cons, ih hk.2.2]
    obtain ⟨d, b, x, sib⟩ := f
    cases d <;> simp [Frame.fill, mk, leavesBare, Ne.symm hk.1, leavesBare_of_notMem hk.2.1]

theorem leavesBare_fill_congr (p : TPath ι) {t' : CTree ι} (h1 : t'.isLeaf = t.isLeaf)
    (h2 : t'.bareLast = t.bareLast) (h3 : t'.leavesBare k = t.leavesBare k) :
    (p.fill t').leavesBare k = (p.fill t).leavesBare k := by
  induction p generalizing t t' with
  | nil => exact h3
  | cons f up ih =>
    obtain ⟨d, b, x, sib⟩ := f
    refine ih ?_ ?_ ?_
    · cases d <;> rfl
    · cases d <;> simp only [Frame.fill, mk, bareLast, h1, h2]
    · cases d <;> simp only [Frame.fill, mk, leavesBare, h1, h2, h3]

theorem needsRepair_fill_rekey (p : TPath ι) (b : Bool) (l r : CTree ι) {x x' : ι} (hx : x ≠ k)
    (hx' : x' ≠ k) :
    (p.fill (node b l x' r)).NeedsRepair k ↔ (p.fill (node b l x r)).NeedsRepair k := by
  have h : (p.fill (node b l x' r)).leavesBare k = (p.fill (node b l x r)).leavesBare k :=
    leavesBare_fill_congr p rfl rfl (by simp [leavesBare, hx, hx'])
  rw [NeedsRepair, NeedsRepair, h]
  simp [toList]

theorem needsRepair_fill_one {d : Side} {b : Bool} (hk : k ∉ p.keys) :
    (p.fill (mk d b k t leaf)).NeedsRepair k ↔ b = true ∧ t = leaf ∧ p ≠ [] := by
  have h : (mk d b k t leaf).leavesBare k = (t.isLeaf && b) := by
    cases d with
    | left =>
      rw [mk, leavesBare, if_pos rfl]
      cases t <;> rfl
    | right =>
      rw [mk, leavesBare, if_pos rfl]
      rfl
  rw [NeedsRepair, leavesBare_fill hk, h, Bool.and_eq_true, isLeaf_eq_true]
  constructor
  · rintro ⟨h1, rfl, rfl⟩
    refine ⟨rfl, rfl, ?_⟩
    rintro rfl
    cases d <;> simp [mk, toList] at h1
  · rintro ⟨rfl, rfl, hp⟩
    refine ⟨?_, rfl, rfl⟩
    obtain ⟨f, up, rfl⟩ := List.exists_cons_of_ne_nil hp
    rw [← Multiset.coe_card, coe_toList, keys_fill, keys, CTree.keys_mk]
    simp only [Multiset.card_add, Multiset.card_cons]
    omega

/-- A node with two children, the last node of its left subtree being `x`. -/
theorem needsRepair_fill_two {q : TPath ι} {b c : Bool} {x : ι} {l r : CTree ι} (hk : k ∉ p.keys)
    (hq : ∀ f ∈ q, f.side = .right) (hr : r ≠ leaf) :
    (p.fill (node b (q.fill (mk .right c x leaf l)) k r)).NeedsRepair k ↔ c = true ∧ l = leaf := by
  have hne : q.fill (mk .right c x leaf l) ≠ leaf := fill_ne_leaf (CTree.mk_ne_leaf _ _ _ _ _)
  have h : (node b (q.fill (mk .right c x leaf l)) k r).leavesBare k = (c && l.isLeaf) := by
    rw [leavesBare, if_pos rfl, isLeaf_eq_false.mpr hne, isLeaf_eq_false.mpr hr,
      bareLast_fill hq (CTree.mk_ne_leaf _ _ _ _ _)]
    rfl
  rw [NeedsRepair, leavesBare_fill hk, h, Bool.and_eq_true, isLeaf_eq_true]
  refine and_iff_right ?_
  obtain ⟨b', l', y, r', rfl⟩ : ∃ b' l' y r', r = node b' l' y r' := by
    cases r with
    | leaf => exact absurd rfl hr
    | node b' l' y r' => exact ⟨b', l', y, r', rfl⟩
  rw [← Multiset.coe_card, coe_toList, keys_fill, CTree.keys, CTree.keys]
  simp only [Multiset.card_add, Multiset.card_cons]
  omega

end TPath

end Pptk.Lib
