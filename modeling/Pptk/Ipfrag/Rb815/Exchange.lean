import Pptk.Ipfrag.Rb815.Heap

/-!
# Moving a node out of the tree

`rb815_tree_delete` lets a node with two children change places with the last node
of its left subtree and then takes it out. Both are changes of the heap of
descriptors, `relabel` and `splice`; in between the tree is not a search tree.

Main result: `Linked815.unlink`.
-/

namespace Pptk.Ipfrag

open Pptk.Lib Pptk.Iphdr Pptk.Rbtree TPath Multiset Option CTree PNode

/-! ## What is left in invalid links -/

/-- The block numbers of the invalid links of `h` are in `A`. -/
def Rb815hole.LeftIn (h : Rb815hole) (A : Side → Fin 8192 → Prop) : Prop :=
  ∀ d, (h.child d).valid = false → A d (h.child d).div8

namespace Rb815hole.LeftIn

variable {h : Rb815hole} {A : Side → Fin 8192 → Prop} {l : Link815}

theorem setParent (hA : h.LeftIn A) : ({ h with parent := l } : Rb815hole).LeftIn A := by
  intro d hd
  rw [Rb815hole.child_withParent] at hd ⊢
  exact hA d hd

theorem setChild (hA : h.LeftIn A) {d : Side} (hl : l.valid = false → A d l.div8) :
    (h.setChild d l).LeftIn A := by
  intro e he
  by_cases hed : e = d
  · subst hed
    rw [Rb815hole.child_setChild] at he ⊢
    exact hl he
  · obtain rfl := Side.eq_other_of_ne hed
    rw [Rb815hole.child_other_setChild] at he ⊢
    exact hA _ he

theorem setLen (hA : h.LeftIn A) (n : Fin 65536) : ({ h with len := n } : Rb815hole).LeftIn A := by
  intro d hd
  have hc : ({ h with len := n } : Rb815hole).child d = h.child d := by cases d <;> rfl
  rw [hc] at hd ⊢
  exact hA d hd

theorem mono {A' : Side → Fin 8192 → Prop} (hA : h.LeftIn A) (hAA : ∀ d s, A d s → A' d s) :
    h.LeftIn A' := fun d hd => hAA d _ (hA d hd)

end Rb815hole.LeftIn

/-! ## Changing places -/

/-- The colours and links of the descriptors at all locations. -/
def Rb815ctx.nodes (ctx : Rb815ctx) : Heap ℕ := fun k => (ctx.loadHole k).node

/-- In `ctx'` the descriptors of the nodes `S` are linked as in `ctx` with `a` and `b` exchanged.
The lengths stay with the descriptors. -/
structure Exchanged (D : ℕ → Prop) (P : ℕ × ℕ → Prop) (ctx ctx' : Rb815ctx) (S : Multiset ℕ)
    (a b : ℕ) : Prop extends TreeStep D P ctx ctx' where
  root : ctx'.rootHole = if (ctx.loadHole a).parent.ptr = none then b else ctx.rootHole
  node : ∀ z ∈ S, (ctx'.loadHole z).node = relabel ctx.nodes a b z
  left : ∀ z ∈ S, z ≠ a → ∀ A, (ctx.loadHole z).LeftIn A → (ctx'.loadHole z).LeftIn A

namespace Rb815ctx

variable {D : ℕ → Prop} {P : ℕ × ℕ → Prop} {ctx : Rb815ctx} {S : Multiset ℕ} {a b : ℕ}

@[simp] theorem nodes_left (k : ℕ) : (ctx.nodes k).left = (ctx.loadHole k).left.ptr := rfl

@[simp] theorem nodes_right (k : ℕ) : (ctx.nodes k).right = (ctx.loadHole k).right.ptr := rfl

@[simp] theorem nodes_parent (k : ℕ) : (ctx.nodes k).parent = (ctx.loadHole k).parent.ptr := rfl

theorem toLoc_valid {i : ℕ} : (Link815.toLoc i).valid ≠ false := by simp [Link815.toLoc]

variable {l : Link815}

theorem Room.ptr_ofLoc (h : Room D P ctx S) (hl : ∀ x, l.ptr = some x → x ∈ S) :
    (Link815.ofLoc l.loc).ptr = l.ptr :=
  Link815.ptr_ofLoc_loc fun x hx => h.isLoc (hl x hx)

theorem Room.ofLoc_valid (h : Room D P ctx S) (hl : ∀ x, l.ptr = some x → x ∈ S)
    (hne : l.ptr ≠ none) : (Link815.ofLoc l.loc).valid ≠ false := by
  rw [ne_eq, Link815.valid_eq_false_iff, h.ptr_ofLoc hl]
  exact hne

theorem replaceChild_spec (b : ℕ)
    (hl : ∀ u, l.ptr = some u → (ctx.nodes u).left = some a ∨ (ctx.nodes u).right = some a) :
    l.ptr = none ∨ ∃ u, l.ptr = some u ∧ (ctx.loadHole u).replaceChild a b =
      some ((ctx.loadHole u).setChild (sideOf ctx.nodes u a) (.toLoc b)) := by
  cases hp : l.ptr with
  | none => exact .inl rfl
  | some u => exact .inr ⟨u, rfl, Rb815hole.replaceChild_eq b (hl u hp)⟩

/-- The descriptor at `k` after the exchange of `a` and its left child `b`. -/
def exchangedChild (ctx : Rb815ctx) (a b k : ℕ) : Rb815hole :=
  let n1 := ctx.loadHole a
  let n2 := ctx.loadHole b
  if (ctx.nodes b).right = some k ∨ (ctx.nodes b).left = some k then
    { ctx.loadHole k with parent := .toLoc a }
  else if (ctx.nodes a).parent = some k then
    (ctx.loadHole k).setChild (sideOf ctx.nodes k a) (.toLoc b)
  else if (ctx.nodes a).right = some k then { ctx.loadHole k with parent := .toLoc b }
  else if k = b then
    { (n2.setChild .left (.toLoc a)).setChild .right (.ofLoc n1.right.loc) with
      parent := .ofLoc n1.parent.loc, isBlack := n1.isBlack }
  else if k = a then
    { n1 with left := n2.left, right := n2.right, parent := .toLoc b, isBlack := n2.isBlack }
  else ctx.loadHole k

theorem exchangeChild_loads (hl : Linked ctx.nodes S) (hroom : Room D P ctx S) (ha : a ∈ S)
    (hb : b ∈ S) :
    ∃ ctx', ctx.exchangeChild .left a b = some ctx' ∧
      (∀ k, IsLoc k → ctx'.loadHole k = ctx.exchangedChild a b k) ∧
      ctx'.rootHole = (if (ctx.loadHole a).parent.ptr = none then b else ctx.rootHole) ∧
      Touches D P ctx.toPktBuf ctx'.toPktBuf := by
  have hpar := hroom.parent a ha
  have hright : ∀ x, (ctx.loadHole a).right.ptr = some x → x ∈ S := hroom.child a ha .right
  have hbl : ∀ x, (ctx.loadHole b).left.ptr = some x → x ∈ S := hroom.child b hb .left
  have hbr : ∀ x, (ctx.loadHole b).right.ptr = some x → x ∈ S := hroom.child b hb .right
  have hla := hroom.isLoc ha
  have hlb := hroom.isLoc hb
  have hnull : (ctx.loadHole a).parent.loc = rb815Null ↔ (ctx.loadHole a).parent.ptr = none :=
    Link815.loc_eq_null
  obtain ⟨parent, hparent, hload⟩ : ∃ parent : Rb815hole,
      (if (ctx.loadHole a).parent.loc = rb815Null then some Rb815hole.zero
        else (ctx.loadHole (ctx.loadHole a).parent.loc).replaceChild a b) = some parent ∧
      ∀ u, (ctx.loadHole a).parent.ptr = some u →
        parent = (ctx.loadHole u).setChild (sideOf ctx.nodes u a) (.toLoc b) := by
    rcases replaceChild_spec b fun u hu => (hl.parent a ha u hu).2 with hp | ⟨u, hu, hr⟩
    · exact ⟨_, if_pos (hnull.mpr hp), by simp [hp]⟩
    · refine ⟨(ctx.loadHole u).setChild (sideOf ctx.nodes u a) (.toLoc b), ?_, fun v hv => ?_⟩
      · rw [if_neg (by rw [hnull, hu]; simp), Link815.loc_of_ptr hu, hr]
      · rw [hu, some.injEq] at hv
        rw [hv]
  simp only [exchangeChild, hparent, bind_eq_bind, bind_some, Rb815hole.child,
    Side.other, Side.pick]
  refine ⟨_, rfl, fun k hk => ?_, by simp [hnull], ?_⟩
  · have hloc : ∀ l : Link815, k = l.loc ↔ l.ptr = some k := fun l =>
      eq_comm.trans (Link815.loc_eq_iff hk)
    rw [loadHole_storeIf (hroom.isLoc_or hbr) hk, loadHole_storeIf (hroom.isLoc_or hbl) hk,
      loadHole_storeIf (hroom.isLoc_or hpar) hk, loadHole_storeIf (hroom.isLoc_or hright) hk,
      loadHole_storeHole (.inl hlb) hk, loadHole_storeHole (.inl hla) hk]
    simp only [hloc, exchangedChild, nodes_left, nodes_right, nodes_parent]
    by_cases h1 : (ctx.loadHole b).right.ptr = some k
    · rw [if_pos h1, if_pos (Or.inl h1), loadIf_loc hk h1]
    by_cases h2 : (ctx.loadHole b).left.ptr = some k
    · rw [if_neg h1, if_pos h2, if_pos (Or.inr h2), loadIf_loc hk h2]
    rw [if_neg h1, if_neg h2, if_neg (not_or.mpr ⟨h1, h2⟩)]
    by_cases h3 : (ctx.loadHole a).parent.ptr = some k
    · rw [if_pos h3, if_pos h3, hload k h3]
    by_cases h4 : (ctx.loadHole a).right.ptr = some k
    · rw [if_neg h3, if_pos h4, if_neg h3, if_pos h4, loadIf_loc hk h4]
    rw [if_neg h3, if_neg h4, if_neg h3, if_neg h4]
    rfl
  · have h0 : ∀ root, Touches D P ctx.toPktBuf { ctx with rootHole := root }.toPktBuf := fun _ =>
      .refl _
    exact ((((((h0 _).trans (hroom.touches_storeHole ha _ _)).trans
      (hroom.touches_storeHole hb _ _)).trans (hroom.touches_storeIf hright _ _)).trans
      (hroom.touches_storeIf hpar _ _)).trans (hroom.touches_storeIf hbl _ _)).trans
      (hroom.touches_storeIf hbr _ _)

/-- The first branch of `exchange`: the second node is the left child of the first. -/
theorem exchangeChild_spec (hl : Linked ctx.nodes S) (hroom : Room D P ctx S) (ha : a ∈ S)
    (hb : (ctx.nodes a).left = some b) (hr : (ctx.nodes a).right ≠ none)
    (hup : ∀ u, (ctx.nodes a).parent = some u → u ≠ a ∧ u ≠ b ∧ (ctx.nodes a).right ≠ some u ∧
      (ctx.nodes b).left ≠ some u ∧ (ctx.nodes b).right ≠ some u) :
    ∃ ctx', ctx.exchangeChild .left a b = some ctx' ∧ Exchanged D P ctx ctx' S a b := by
  obtain ⟨hbS, hbp, hba, hrb⟩ := hl.left a ha b hb
  obtain ⟨ctx', hctx', hload, hroot, ht⟩ := exchangeChild_loads hl hroom ha hbS
  have hla := hroom.isLoc ha
  have hlb := hroom.isLoc hbS
  have hpa : (ctx.nodes a).parent ≠ some a := fun h => (hup a h).1 rfl
  have hpb : (ctx.nodes a).parent ≠ some b := fun h => (hup b h).2.1 rfl
  have hra : (ctx.nodes a).right ≠ some a := fun h => (hl.right a ha a h).2.2.1 rfl
  have hcb := hl.child_ne hbS (k := b) (by rw [hbp]; simpa using hba.symm)
  have hca := hl.child_ne hbS (k := a) hpb
  have hcb' : (ctx.nodes b).right ≠ some b ∧ (ctx.nodes b).left ≠ some b := ⟨hcb .right, hcb .left⟩
  have hca' : (ctx.nodes b).right ≠ some a ∧ (ctx.nodes b).left ≠ some a := ⟨hca .right, hca .left⟩
  refine ⟨ctx', hctx', ⟨ht, fun k hk => ?_⟩, hroot, fun z hz => ?_, fun z hz hza A hA => ?_⟩
  · rw [hload k hk, exchangedChild]
    split_ifs with h1 h2 h3 h4 h5
    · rfl
    · exact Rb815hole.len_setChild ..
    · rfl
    · rw [h4]
      simp
    · rw [h5]
    · rfl
  · rw [hload z (hroom.isLoc hz), exchangedChild]
    by_cases hza : z = a
    · subst hza
      rw [relabel_left_apply, swapChildren_of_ne hca hcb, hbp, map_some,
        Equiv.swap_apply_left, if_neg (not_or.mpr hca'), if_neg hpa, if_neg hra,
        if_neg (Ne.symm hba), if_pos rfl]
      simp only [Rb815hole.node, Link815.ptr_toLoc hlb]
      rfl
    by_cases hzb : z = b
    · subst hzb
      rw [relabel_right_apply, swapChildren, hb, map_some, Equiv.swap_apply_right,
        map_swap_of_ne hra hrb, map_swap_of_ne hpa hpb,
        if_neg (not_or.mpr hcb'), if_neg hpb, if_neg hrb, if_pos rfl]
      simp only [Rb815hole.node, Rb815hole.setChild, Link815.ptr_toLoc hla,
        hroom.ptr_ofLoc (hroom.parent a ha), hroom.ptr_ofLoc (l := (ctx.loadHole a).right)
          (hroom.child a ha .right)]
      rfl
    have hbz : (ctx.nodes b).parent ≠ some z := by
      rw [hbp]
      simpa using Ne.symm hza
    have hza' : (ctx.nodes z).parent = some a → (ctx.nodes a).right = some z := fun h =>
      (hl.parent z hz a h).2.resolve_left (by rw [hb]; simpa using Ne.symm hzb)
    have hzb' := hl.parent z hz b
    rw [relabel_of_ne hza hzb, hl.swapChildren_eq ha hbS (fun _ => hbz) hz, if_neg hbz]
    by_cases h1 : (ctx.nodes b).right = some z ∨ (ctx.nodes b).left = some z
    · have hzp : (ctx.nodes z).parent = some b :=
        h1.elim (fun h => (hl.right b hbS z h).2.1) fun h => (hl.left b hbS z h).2.1
      have hup' : (ctx.nodes a).parent ≠ some z := fun h =>
        h1.elim (hup z h).2.2.2.2 (hup z h).2.2.2.1
      rw [if_pos h1, if_neg hup', hzp, map_some, Equiv.swap_apply_right]
      simp only [Rb815hole.node, Link815.ptr_toLoc hla]
      rfl
    rw [if_neg h1]
    have hzb'' : (ctx.nodes z).parent ≠ some b := fun h => h1 (hzb' h).2.symm
    by_cases h2 : (ctx.nodes a).parent = some z
    · have hra' : (ctx.nodes a).right ≠ some z := (hup z h2).2.2.1
      rw [if_pos h2, if_pos h2, map_swap_of_ne (fun h => hra' (hza' h)) hzb'',
        Rb815hole.node_setChild, Link815.ptr_toLoc hlb]
      cases sideOf ctx.nodes z a <;> rfl
    rw [if_neg h2, if_neg h2]
    by_cases h3 : (ctx.nodes a).right = some z
    · have hzp := (hl.right a ha z h3).2.1
      rw [if_pos h3, hzp, map_some, Equiv.swap_apply_left]
      simp only [Rb815hole.node, Link815.ptr_toLoc hlb]
      rfl
    rw [if_neg h3, if_neg hzb, if_neg hza, map_swap_of_ne (fun h => h3 (hza' h)) hzb'']
    rfl
  · rw [hload z (hroom.isLoc hz), exchangedChild]
    split_ifs with h1 h2 h3 h4
    · exact hA.setParent
    · exact hA.setChild fun h => absurd h toLoc_valid
    · exact hA.setParent
    · -- the new links are both valid
      intro d hd
      cases d with
      | left => exact absurd hd toLoc_valid
      | right => exact absurd hd (hroom.ofLoc_valid (hroom.child a ha .right) hr)
    · exact hA

/-- A parent that was loaded from `ctx` and is stored into `c` with the link to `x` replaced. -/
theorem storeReplaced_spec {c : Rb815ctx} {x : ℕ} (y : ℕ) (hroom : Room D P ctx S)
    (hlS : ∀ u, l.ptr = some u → u ∈ S)
    (hl : ∀ u, l.ptr = some u → (ctx.nodes u).left = some x ∨ (ctx.nodes u).right = some x) :
    ∃ c', c.storeReplaced l.loc (ctx.loadIf l.loc) x y = some c' ∧
      (∀ k, IsLoc k → c'.loadHole k =
        if l.ptr = some k then (ctx.loadHole k).setChild (sideOf ctx.nodes k x) (.toLoc y)
        else c.loadHole k) ∧
      c'.rootHole = c.rootHole ∧ Touches D P c.toPktBuf c'.toPktBuf := by
  rcases replaceChild_spec y hl with hp | ⟨u, hu, hr⟩
  · refine ⟨c, if_pos (Link815.loc_of_none hp), fun k _ => ?_, rfl, .refl _⟩
    rw [if_neg (by rw [hp]; simp)]
  · have hul := hroom.isLoc (hlS u hu)
    refine ⟨c.storeHole u ((ctx.loadHole u).setChild (sideOf ctx.nodes u x) (.toLoc y)), ?_,
      fun k hk => ?_, rfl, hroom.touches_storeHole (hlS u hu) _ _⟩
    · rw [storeReplaced, Link815.loc_of_ptr hu, if_neg hul.ne_null, loadIf_of_isLoc hul, hr]
      rfl
    · rw [loadHole_storeHole (.inl hul) hk, hu]
      by_cases he : k = u
      · rw [if_pos he, he, if_pos rfl]
      · rw [if_neg he, if_neg fun h => he (some.inj h).symm]

/-- The descriptor at `k` with the links down to `a` and `b` exchanged. -/
def exchangedLinks (ctx : Rb815ctx) (a b k : ℕ) : Rb815hole :=
  if (ctx.nodes b).parent = some k then
    (ctx.loadHole k).setChild (sideOf ctx.nodes k b) (.toLoc a)
  else if (ctx.nodes a).parent = some k then
    (ctx.loadHole k).setChild (sideOf ctx.nodes k a) (.toLoc b)
  else ctx.loadHole k

/-- The descriptor at `k` after the exchange of `a` and `b` that are not each other's parent. -/
def exchangedApart (ctx : Rb815ctx) (a b k : ℕ) : Rb815hole :=
  let n1 := ctx.loadHole a
  let n2 := ctx.loadHole b
  if (ctx.nodes b).right = some k ∨ (ctx.nodes b).left = some k then
    { ctx.exchangedLinks a b k with parent := .toLoc a }
  else if (ctx.nodes a).right = some k ∨ (ctx.nodes a).left = some k then
    { ctx.exchangedLinks a b k with parent := .toLoc b }
  else if k = b then
    { n2 with parent := .ofLoc n1.parent.loc, left := .ofLoc n1.left.loc,
              right := .ofLoc n1.right.loc, isBlack := n1.isBlack }
  else if k = a then
    { n1 with parent := .ofLoc n2.parent.loc, left := .ofLoc n2.left.loc,
              right := .ofLoc n2.right.loc, isBlack := n2.isBlack }
  else ctx.exchangedLinks a b k

theorem exchangeApart_loads (hl : Linked ctx.nodes S) (hroom : Room D P ctx S) (ha : a ∈ S)
    (hb : b ∈ S) (hbp : (ctx.nodes b).parent ≠ none) :
    ∃ ctx', ctx.exchangeApart a b = some ctx' ∧
      (∀ k, IsLoc k → ctx'.loadHole k = ctx.exchangedApart a b k) ∧
      ctx'.rootHole = (if (ctx.loadHole a).parent.ptr = none then b else ctx.rootHole) ∧
      Touches D P ctx.toPktBuf ctx'.toPktBuf := by
  have hal : ∀ x, (ctx.loadHole a).left.ptr = some x → x ∈ S := hroom.child a ha .left
  have har : ∀ x, (ctx.loadHole a).right.ptr = some x → x ∈ S := hroom.child a ha .right
  have hbl : ∀ x, (ctx.loadHole b).left.ptr = some x → x ∈ S := hroom.child b hb .left
  have hbr : ∀ x, (ctx.loadHole b).right.ptr = some x → x ∈ S := hroom.child b hb .right
  have hnull : ∀ l : Link815, l.loc = rb815Null ↔ l.ptr = none := fun l => Link815.loc_eq_null
  obtain ⟨c1, hc1, hload1, hroot1, ht1⟩ := storeReplaced_spec (c := ctx) b hroom
    (hroom.parent a ha) fun u hu => (hl.parent a ha u hu).2
  obtain ⟨c2, hc2, hload2, hroot2, ht2⟩ := storeReplaced_spec (c := c1) a hroom
    (hroom.parent b hb) fun u hu => (hl.parent b hb u hu).2
  have hlinks : ∀ k, IsLoc k → c2.loadHole k = ctx.exchangedLinks a b k := fun k hk => by
    rw [hload2 k hk, hload1 k hk]
    rfl
  simp only [exchangeApart, hc1, hc2, bind_eq_bind, bind_some, hnull]
  rw [if_neg (fun h => hbp h.1)]
  refine ⟨_, rfl, fun k hk => ?_, ?_, ?_⟩
  · have hloc : ∀ l : Link815, k = l.loc ↔ l.ptr = some k := fun l =>
      eq_comm.trans (Link815.loc_eq_iff hk)
    rw [loadHole_storeIf (hroom.isLoc_or hbr) hk, loadHole_storeIf (hroom.isLoc_or hbl) hk,
      loadHole_storeIf (hroom.isLoc_or har) hk, loadHole_storeIf (hroom.isLoc_or hal) hk,
      loadHole_storeHole (.inl (hroom.isLoc hb)) hk, loadHole_storeHole (.inl (hroom.isLoc ha)) hk]
    simp only [hloc, exchangedApart, nodes_left, nodes_right]
    by_cases h1 : (ctx.loadHole b).right.ptr = some k
    · simp only [h1, true_or, if_true, loadIf_loc hk h1, hlinks k hk]
    by_cases h2 : (ctx.loadHole b).left.ptr = some k
    · simp only [h1, h2, if_false, or_true, if_true, loadIf_loc hk h2, hlinks k hk]
    simp only [h1, h2, if_false, or_false]
    by_cases h3 : (ctx.loadHole a).right.ptr = some k
    · simp only [h3, true_or, if_true, loadIf_loc hk h3, hlinks k hk]
    by_cases h4 : (ctx.loadHole a).left.ptr = some k
    · simp only [h3, h4, if_false, or_true, if_true, loadIf_loc hk h4, hlinks k hk]
    simp only [h3, h4, if_false, or_false, ← hlinks k hk]
    rfl
  · simp only [storeIf_rootHole, storeHole_rootHole, hroot2, hroot1]
    rw [if_neg (show ¬(ctx.loadHole b).parent.ptr = none from hbp)]
  · have h0 : ∀ root, Touches D P c2.toPktBuf { c2 with rootHole := root }.toPktBuf := fun _ =>
      .refl _
    exact (((((((ht1.trans ht2).trans (h0 _)).trans (hroom.touches_storeHole ha _ _)).trans
      (hroom.touches_storeHole hb _ _)).trans (hroom.touches_storeIf hal _ _)).trans
      (hroom.touches_storeIf har _ _)).trans (hroom.touches_storeIf hbl _ _)).trans
      (hroom.touches_storeIf hbr _ _)

theorem len_exchangedLinks (k : ℕ) : (ctx.exchangedLinks a b k).len = (ctx.loadHole k).len := by
  unfold exchangedLinks
  split_ifs <;> simp

theorem leftIn_exchangedLinks {k : ℕ} {A : Side → Fin 8192 → Prop}
    (hA : (ctx.loadHole k).LeftIn A) : (ctx.exchangedLinks a b k).LeftIn A := by
  unfold exchangedLinks
  split_ifs
  · exact hA.setChild fun h => absurd h toLoc_valid
  · exact hA.setChild fun h => absurd h toLoc_valid
  · exact hA

theorem node_exchangedLinks {k : ℕ} (hl : Linked ctx.nodes S) (hroom : Room D P ctx S) (ha : a ∈ S)
    (hb : b ∈ S) (hpar : (ctx.nodes a).parent = some k → (ctx.nodes b).parent ≠ some k)
    (hk : k ∈ S) : (ctx.exchangedLinks a b k).node = (ctx.nodes k).swapChildren a b := by
  rw [hl.swapChildren_eq ha hb hpar hk]
  unfold exchangedLinks
  split_ifs
  · rw [Rb815hole.node_setChild, Link815.ptr_toLoc (hroom.isLoc ha)]
    rfl
  · rw [Rb815hole.node_setChild, Link815.ptr_toLoc (hroom.isLoc hb)]
    rfl
  · rfl

/-- The last part of `exchange`: neither node is the parent of the other. -/
theorem exchangeApart_spec (hl : Linked ctx.nodes S) (hroom : Room D P ctx S) (ha : a ∈ S)
    (hb : b ∈ S) (hab : a ≠ b) (hpa : (ctx.nodes a).parent ≠ some b)
    (hpb : (ctx.nodes b).parent ≠ some a)
    (hpar : ∀ u, (ctx.nodes a).parent = some u → (ctx.nodes b).parent ≠ some u)
    (hbp : (ctx.nodes b).parent ≠ none) (hal : (ctx.nodes a).left ≠ none)
    (har : (ctx.nodes a).right ≠ none) :
    ∃ ctx', ctx.exchangeApart a b = some ctx' ∧ Exchanged D P ctx ctx' S a b := by
  obtain ⟨ctx', hctx', hload, hroot, ht⟩ := exchangeApart_loads hl hroom ha hb hbp
  have hlS : ∀ {x}, x ∈ S → ∀ y, (ctx.loadHole x).left.ptr = some y → y ∈ S := fun hx =>
    hroom.child _ hx .left
  have hrS : ∀ {x}, x ∈ S → ∀ y, (ctx.loadHole x).right.ptr = some y → y ∈ S := fun hx =>
    hroom.child _ hx .right
  -- no node is its own parent
  have hself : ∀ {x}, x ∈ S → (ctx.nodes x).parent ≠ some x := fun hx h =>
    (hl.parent _ hx _ h).2.elim (fun h' => (hl.left _ hx _ h').2.2.1 rfl)
      fun h' => (hl.right _ hx _ h').2.2.1 rfl
  have hoff : ∀ {x y}, y ∈ S → (ctx.nodes x).parent ≠ some y →
      ¬((ctx.nodes y).right = some x ∨ (ctx.nodes y).left = some x) := fun hy hne =>
    not_or.mpr ⟨hl.child_ne hy hne .right, hl.child_ne hy hne .left⟩
  refine ⟨ctx', hctx', ⟨ht, fun k hk => ?_⟩, hroot, fun z hz => ?_, fun z hz hza A hA => ?_⟩
  · rw [hload k hk, exchangedApart]
    split_ifs with h1 h2 h3 h4
    · exact len_exchangedLinks k
    · exact len_exchangedLinks k
    · rw [h3]
    · rw [h4]
    · exact len_exchangedLinks k
  · rw [hload z (hroom.isLoc hz), exchangedApart]
    by_cases hza : z = a
    · subst hza
      rw [relabel_left_apply, swapChildren_of_ne (hl.child_ne hb hpa)
        (hl.child_ne hb (hself hb)), map_swap_of_ne hpb (hself hb), if_neg (hoff hb hpa),
        if_neg (hoff hz (hself hz)), if_neg hab, if_pos rfl]
      simp only [Rb815hole.node, hroom.ptr_ofLoc (hroom.parent b hb), hroom.ptr_ofLoc (hlS hb),
        hroom.ptr_ofLoc (hrS hb)]
      rfl
    by_cases hzb : z = b
    · subst hzb
      rw [relabel_right_apply, swapChildren_of_ne (hl.child_ne ha (hself ha))
        (hl.child_ne ha hpb), map_swap_of_ne (hself ha) hpa, if_neg (hoff hz (hself hz)),
        if_neg (hoff ha hpb), if_pos rfl]
      simp only [Rb815hole.node, hroom.ptr_ofLoc (hroom.parent a ha), hroom.ptr_ofLoc (hlS ha),
        hroom.ptr_ofLoc (hrS ha)]
      rfl
    have hlinks := node_exchangedLinks hl hroom ha hb (hpar z) hz
    rw [relabel_of_ne hza hzb, ← hlinks]
    split_ifs with h1 h2
    · have hzp : (ctx.nodes z).parent = some b :=
        h1.elim (fun h => (hl.right b hb z h).2.1) fun h => (hl.left b hb z h).2.1
      rw [hzp, map_some, Equiv.swap_apply_right, ← Link815.ptr_toLoc (hroom.isLoc ha)]
      rfl
    · have hzp : (ctx.nodes z).parent = some a :=
        h2.elim (fun h => (hl.right a ha z h).2.1) fun h => (hl.left a ha z h).2.1
      rw [hzp, map_some, Equiv.swap_apply_left, ← Link815.ptr_toLoc (hroom.isLoc hb)]
      rfl
    · have hup : ∀ x, ¬((ctx.nodes x).right = some z ∨ (ctx.nodes x).left = some z) →
          (ctx.nodes z).parent ≠ some x := fun x hx h => hx (hl.parent z hz x h).2.symm
      rw [map_swap_of_ne (hup a h2) (hup b h1), hlinks]
      rfl
  · rw [hload z (hroom.isLoc hz), exchangedApart]
    split_ifs with h1 h2 h3
    · exact (leftIn_exchangedLinks hA).setParent
    · exact (leftIn_exchangedLinks hA).setParent
    · -- the new links are both valid
      intro d hd
      cases d with
      | left => exact absurd hd (hroom.ofLoc_valid (hlS ha) hal)
      | right => exact absurd hd (hroom.ofLoc_valid (hrS ha) har)
    · exact leftIn_exchangedLinks hA

end Rb815ctx

namespace Linked815

variable {D : ℕ → Prop} {W : ℕ × ℕ → Prop} {ctx : Rb815ctx} {T : CTree ℕ} {C : TPath ℕ}

theorem rep_nodes (h : Linked815 D ctx T) : Rep ⟨ctx.view.root, ctx.nodes⟩ T :=
  h.rep.congr rfl fun _ hk => h.node_eq hk

theorem view_root_eq {ctx' : Rb815ctx} {x : Option ℕ} {p : Prop} [Decidable p]
    (hroot : ctx'.rootHole = if p then x.getD rb815Null else ctx.rootHole)
    (hx : ∀ k, x = some k → IsLoc k) : ctx'.view.root = if p then x else ctx.view.root := by
  by_cases hp : p
  · rw [if_pos hp] at hroot ⊢
    cases x with
    | none => rw [Rb815ctx.view, hroot]; rfl
    | some k =>
      have hk : ctx'.rootHole = k := hroot
      rw [Rb815ctx.view_root_of_isLoc (hk ▸ hx k rfl), hk]
  · rw [if_neg hp] at hroot ⊢
    exact Rb815ctx.view_root_congr hroot

/-- `exchange` swaps the names of the two nodes. -/
theorem exchange {P : TPath ℕ} {c1 c2 : Bool} {a b : ℕ} {L R : CTree ℕ}
    (hW : ∀ k, Slot D k → W (k, 8))
    (h : Linked815 D ctx (C.fill (.node c1 (P.fill (.node c2 L b .leaf)) a R))) (hR : R ≠ .leaf) :
    ∃ ctx', ctx.exchange a b = some ctx' ∧
      Linked815 D ctx' (C.fill (.node c1 (P.fill (.node c2 L a .leaf)) b R)) ∧
      Exchanged D W ctx ctx' (C.fill (.node c1 (P.fill (.node c2 L b .leaf)) a R)).keys a b := by
  have hrep := h.rep_nodes
  have hlink := hrep.shape.linked hrep.nodup
  have hroom := h.room hW
  have ha : a ∈ (C.fill (.node c1 (P.fill (.node c2 L b .leaf)) a R)).keys := by simp [CTree.keys]
  have hb : b ∈ (C.fill (.node c1 (P.fill (.node c2 L b .leaf)) a R)).keys := by simp [CTree.keys]
  obtain ⟨hab, hal, har, hpa, hpb, hP, -⟩ := Rep.exchange_reads (d := .left) hrep
  replace hal : (ctx.nodes a).left = (P.fill (.node c2 L b .leaf)).root? := hal
  replace har : (ctx.nodes a).right = R.root? := har
  have hright : (ctx.nodes a).right ≠ none := by
    rw [har]
    exact root?_eq_none.not.mpr hR
  -- whichever branch is taken, it swaps the two names
  suffices hex : ∃ ctx', ctx.exchange a b = some ctx' ∧
      Exchanged D W ctx ctx' (C.fill (.node c1 (P.fill (.node c2 L b .leaf)) a R)).keys a b by
    obtain ⟨ctx', hctx', he⟩ := hex
    have hswap : (C.fill (.node c1 (P.fill (.node c2 L a .leaf)) b R)).keys =
        (C.fill (.node c1 (P.fill (.node c2 L b .leaf)) a R)).keys := by
      simp only [keys_fill, CTree.keys, add_cons, cons_add]
      rw [cons_swap]
    refine ⟨ctx', hctx',
      ⟨Rep.relabel (d := .left) hrep ?_ fun z hz => ?_, by rw [hswap]; exact h.slot⟩, he⟩
    · exact view_root_eq (x := some b) he.root fun k hk => by
        rw [← some.inj hk]
        exact h.isLoc hb
    · rw [Rb815ctx.view_heap (h.isLoc hz)]
      exact he.node z hz
  cases P with
  | nil =>
    have hab' : (ctx.nodes a).left = some b := hal
    -- the parent is outside of the subtree
    have hup : ∀ u, (ctx.nodes a).parent = some u → u ≠ a ∧ u ≠ b ∧ (ctx.nodes a).right ≠ some u ∧
        (ctx.nodes b).left ≠ some u ∧ (ctx.nodes b).right ≠ some u := by
      intro u hu
      have hnd := hrep.nodup
      simp only [fill_nil, keys_fill, CTree.keys, nodup_add,
        disjoint_left, mem_add, mem_cons, not_or] at hnd
      have hau : ctx.nodes a = _ := Rep.heap_eq (d := .left) hrep
      have hbu : ctx.nodes b = _ := Rep.heap_eq (d := .left) (C := ⟨.left, c1, a, R⟩ :: C) hrep
      rw [hau, parent_mk'] at hu
      obtain ⟨hua, ⟨hub, huL, -⟩, huR⟩ := hnd.2.2 (mem_keys_of_parent? hu)
      rw [hbu]
      exact ⟨hua, hub, by rw [har]; exact fun he => huR (CTree.mem_keys_of_root? he),
        fun he => huL (mem_keys_of_root? he), by simp [mk', Side.pick, root?]⟩
    obtain ⟨ctx', hctx', he⟩ := Rb815ctx.exchangeChild_spec hlink hroom ha hab' hright hup
    refine ⟨ctx', ?_, he⟩
    rw [Rb815ctx.exchange, Rb815ctx.exchangeOnce]
    exact (if_pos ⟨Link815.pointsTo_iff.mpr hpb, Link815.block_of_ptr hab'⟩).trans hctx'
  | cons f up =>
    obtain ⟨hfa, hfp⟩ := hP f up rfl
    have hpbf : (ctx.nodes b).parent = some f.key := hpb
    have hpbl : (ctx.loadHole b).parent.ptr = some f.key := hpb
    obtain ⟨ctx', hctx', he⟩ := Rb815ctx.exchangeApart_spec hlink hroom ha hb hab hpa
      (by rw [hpbf]; simpa using hfa) (fun u hu => by
        rw [hpbf]
        rintro ⟨⟩
        exact hfp hu) (by rw [hpbf]; simp)
      (by rw [hal]; exact root?_eq_none.not.mpr (fill_ne_leaf (by simp))) hright
    have hpt : ¬(ctx.loadHole b).parent.PointsTo a := by
      rw [Link815.pointsTo_iff, hpbl]
      simpa using hfa
    refine ⟨ctx', ?_, he⟩
    rw [Rb815ctx.exchange, Rb815ctx.exchangeOnce]
    simp only [hpt, false_and, if_false]
    rw [if_neg, hctx']
    rw [Link815.loc_eq_iff (h.isLoc hb)]
    exact hpa

end Linked815

/-! ## Taking out a node with at most one child -/

namespace Rb815ctx

variable {D : ℕ → Prop} {P : ℕ × ℕ → Prop} {ctx : Rb815ctx} {S : Multiset ℕ} {k : ℕ} {y : Option ℕ}

theorem isLoc_getD (hroom : Room D P ctx S) (hy : ∀ x, y = some x → x ∈ S) :
    IsLoc (y.getD rb815Null) ∨ y.getD rb815Null = rb815Null := by
  cases y with
  | none => exact .inr rfl
  | some x => exact .inl (hroom.isLoc (hy x rfl))

theorem eq_getD_iff {z : ℕ} (hz : IsLoc z) : z = y.getD rb815Null ↔ y = some z := by
  cases y with
  | none => exact iff_of_false hz.ne_null (by simp)
  | some x => simp [eq_comm]

theorem touches_storeIf_getD (hroom : Room D P ctx S) (hy : ∀ x, y = some x → x ∈ S) (c : Rb815ctx)
    (hole : Rb815hole) : Touches D P c.toPktBuf (c.storeIf (y.getD rb815Null) hole).toPktBuf := by
  cases y with
  | none => exact touches_storeIf (.inl rfl) hole
  | some x => exact touches_storeIf (.inr ⟨hroom.slot x (hy x rfl), hroom.store x (hy x rfl)⟩) hole

theorem unlink_loads (hroom : Room D P ctx S) (hk : k ∈ S) (hy : ∀ x, y = some x → x ∈ S)
    (hu : ∀ u, (ctx.nodes k).parent = some u →
      y ≠ some u ∧ ((ctx.nodes u).left = some k ∨ (ctx.nodes u).right = some k)) :
    ∃ l : Link815, l.ptr = (ctx.nodes k).parent ∧
      (∀ z, IsLoc z → (ctx.unlink k (y.getD rb815Null)).1.loadHole z =
        if (ctx.nodes k).parent = some z then
          (ctx.loadHole z).setChild (sideOf ctx.nodes z k) (.ofLoc (y.getD rb815Null))
        else if y = some z then { ctx.loadHole z with parent := l }
        else ctx.loadHole z) ∧
      (∀ x, y = some x →
        (ctx.unlink k (y.getD rb815Null)).2 = { ctx.loadHole x with parent := l }) ∧
      (ctx.unlink k (y.getD rb815Null)).1.rootHole =
        (if (ctx.nodes k).parent = none then y.getD rb815Null else ctx.rootHole) ∧
      Touches D P ctx.toPktBuf (ctx.unlink k (y.getD rb815Null)).1.toPktBuf := by
  have hload : ∀ x, y = some x → ctx.loadIf (y.getD rb815Null) = ctx.loadHole x := by
    rintro x rfl
    exact loadIf_of_isLoc (hroom.isLoc (hy x rfl))
  have hchild : ∀ z, IsLoc z → ∀ l : Link815,
      (if z = y.getD rb815Null then { ctx.loadIf (y.getD rb815Null) with parent := l }
        else ctx.loadHole z) =
      if y = some z then { ctx.loadHole z with parent := l } else ctx.loadHole z := by
    intro z hz l
    by_cases he : y = some z
    · rw [if_pos ((eq_getD_iff hz).mpr he), if_pos he, hload z he]
    · rw [if_neg ((eq_getD_iff hz).not.mpr he), if_neg he]
  cases hp : (ctx.loadHole k).parent.ptr with
  | none =>
    have hpar : (ctx.nodes k).parent = none := hp
    refine ⟨{ (ctx.loadIf (y.getD rb815Null)).parent with valid := false }, by rw [hpar]; rfl, ?_⟩
    simp only [unlink, Link815.loc_of_none hp, if_pos, hpar, reduceCtorEq, if_false]
    refine ⟨fun z hz => ?_, fun x hx => by rw [hload x hx], by simp,
      touches_storeIf_getD hroom hy { ctx with rootHole := y.getD rb815Null } _⟩
    rw [loadHole_storeIf (isLoc_getD hroom hy) hz]
    exact hchild z hz _
  | some u =>
    have hpar : (ctx.nodes k).parent = some u := hp
    have huS := hroom.parent k hk u hp
    have hul := hroom.isLoc huS
    obtain ⟨hyu, hlink⟩ := hu u hpar
    have hstore : ctx.unlink k (y.getD rb815Null) =
        (((ctx.storeIf (y.getD rb815Null)
          { ctx.loadIf (y.getD rb815Null) with parent := .toLoc u }).storeHole u
            ((ctx.loadHole u).setChild (sideOf ctx.nodes u k) (.ofLoc (y.getD rb815Null)))),
          { ctx.loadIf (y.getD rb815Null) with parent := .toLoc u }) := by
      simp only [unlink, Link815.loc_of_ptr hp, if_neg hul.ne_null, loadIf_of_isLoc hul,
        Link815.pointsTo_iff]
      by_cases hl : (ctx.loadHole u).left.ptr = some k
      · rw [if_pos hl, sideOf, if_pos (show (ctx.nodes u).left = some k from hl)]
        rfl
      · have hr : (ctx.loadHole u).right.ptr = some k := hlink.resolve_left hl
        rw [if_neg hl, if_pos hr, sideOf, if_neg (show ¬(ctx.nodes u).left = some k from hl)]
        rfl
    rw [hstore]
    refine ⟨.toLoc u, by rw [hpar, Link815.ptr_toLoc hul], fun z hz => ?_,
      fun x hx => by rw [hload x hx], by simp [hp], (touches_storeIf_getD hroom hy _ _).trans
        (hroom.touches_storeHole huS _ _)⟩
    rw [hpar, loadHole_storeHole (.inl hul) hz, loadHole_storeIf (isLoc_getD hroom hy) hz,
      hchild z hz]
    by_cases hzu : z = u
    · rw [if_pos hzu, hzu, if_pos rfl]
    · rw [if_neg hzu, if_neg fun h => hzu (some.inj h).symm]

end Rb815ctx

namespace Linked815

variable {D : ℕ → Prop} {W : ℕ × ℕ → Prop} {ctx : Rb815ctx} {T : CTree ℕ} {C : TPath ℕ}

/-- The only child of a node in its place. -/
theorem unlink {d : Side} {c : Bool} {k : ℕ} (hW : ∀ k, Slot D k → W (k, 8))
    (h : Linked815 D ctx (C.fill (.mk d c k T .leaf))) :
    Linked815 D (ctx.unlink k (T.root?.getD rb815Null)).1 (C.fill T) ∧
      TreeStep D W ctx (ctx.unlink k (T.root?.getD rb815Null)).1 ∧
      (∀ x, T.root? = some x → (ctx.unlink k (T.root?.getD rb815Null)).2 =
        (ctx.unlink k (T.root?.getD rb815Null)).1.loadHole x) ∧
      ∀ z ∈ (C.fill T).keys, ∀ A, (∀ e, A e 8191) → (ctx.loadHole z).LeftIn A →
        ((ctx.unlink k (T.root?.getD rb815Null)).1.loadHole z).LeftIn A := by
  have hrep := h.rep_nodes
  have hroom := h.room hW
  obtain ⟨hTk, hkk, hu⟩ := hrep.splice_reads
  have hk : k ∈ (C.fill (.mk d c k T .leaf)).keys := by simp
  have hsub : ∀ z ∈ (C.fill T).keys, z ∈ (C.fill (.mk d c k T .leaf)).keys := by
    intro z hz
    simp only [keys_fill, keys_mk, mem_add, mem_cons] at hz ⊢
    tauto
  have hyS : ∀ x, T.root? = some x → x ∈ (C.fill (.mk d c k T .leaf)).keys := fun x hx => by
    have := mem_keys_of_root? hx
    simp [this]
  have hyloc : ∀ x, T.root? = some x → IsLoc x := fun x hx => h.isLoc (hyS x hx)
  obtain ⟨l, hl, hload, hsnd, hroot, ht⟩ := Rb815ctx.unlink_loads hroom hk hyS hu
  have hoff : (Link815.ofLoc (T.root?.getD rb815Null)).ptr = T.root? := by
    cases hr : T.root? with
    | none => exact Link815.ptr_ofLoc_null
    | some x => exact Link815.ptr_ofLoc (hyloc x hr)
  refine ⟨⟨hrep.splice.congr ?_ fun z hz => ?_, fun z hz => h.slot z (hsub z hz)⟩,
    ⟨ht, fun z hz => ?_⟩, fun x hx => ?_, fun z hz A hnull hA => ?_⟩
  · exact view_root_eq hroot hyloc
  · rw [Rb815ctx.view_heap (h.isLoc (hsub z hz)), hload z (h.isLoc (hsub z hz))]
    change _ = splice ctx.nodes k T.root? z
    rw [splice]
    by_cases h1 : (ctx.nodes k).parent = some z
    · rw [if_pos h1, if_neg (hu z h1).1, if_pos h1, Rb815hole.node_setChild, hoff]
      rfl
    · rw [if_neg h1, if_neg h1]
      split_ifs
      · rw [← hl]
        rfl
      · rfl
  · rw [hload z hz]
    split_ifs <;> simp
  · rw [hsnd x hx, hload x (hyloc x hx), if_neg fun hp => (hu x hp).1 hx, if_pos hx]
  · rw [hload z (h.isLoc (hsub z hz))]
    split_ifs
    · refine hA.setChild fun hv => ?_
      rw [Link815.ofLoc_div8 hv]
      exact hnull _
    · exact hA.setParent
    · exact hA

end Linked815

end Pptk.Ipfrag
