import Pptk.Ipfrag.Rb815
import Pptk.Rbtree.Correct

/-!
# The descriptors as linked nodes

The descriptors at the block boundaries of the buffer are a heap of tree nodes
(`Rb815ctx.view`), on which the functions of `iprb815.c` do what those of
`rbtree.c` do on theirs. Three things are not in this picture and are carried along
by `TreeStep` and `Tree815`: the lengths of the holes, the bytes that are written,
and the block numbers that invalid links are left with.

Main result: `loadHole_storeHole`.
-/

namespace Pptk.Ipfrag

open Pptk.Lib Pptk.Iphdr Pptk.Rbtree Option CTree

/-! ## Loads and stores -/

/-- A location at which a descriptor fits into the buffer. -/
def IsLoc (k : ℕ) : Prop := k % 8 = 0 ∧ k + 8 ≤ 65535

theorem IsLoc.ne_null {k : ℕ} (h : IsLoc k) : k ≠ rb815Null := by
  have := h.2
  rw [ne_eq, rb815Null]
  omega

namespace Link815

/-- The node a link leads to. -/
def ptr (l : Link815) : Option ℕ := if l.valid then some l.block else none

variable {l l' : Link815} {k : ℕ}

/-- A link is read back from its word, whatever the colour bit is. -/
theorem ofWord_toWord (l : Link815) (b : Bool) :
    ofWord ((l.toWord + 16384 * b.toNat) % 65536) = l := by
  obtain ⟨⟨n, hn⟩, v⟩ := l
  have hv : v.toNat ≤ 1 := Bool.toNat_le v
  have hb : b.toNat ≤ 1 := Bool.toNat_le b
  rw [ofWord, Link815.mk.injEq, Fin.ext_iff, Fin.val_ofNat]
  refine ⟨by simp only [toWord]; omega, ?_⟩
  cases v with
  | false => exact decide_eq_false (by rw [toWord, Bool.toNat_false]; omega)
  | true => exact decide_eq_true (by rw [toWord, Bool.toNat_true]; omega)

theorem pointsTo_iff : l.PointsTo k ↔ l.ptr = some k := by
  rw [PointsTo, ptr]
  split_ifs with h <;> simp [h]

theorem valid_iff : l.valid = true ↔ l.ptr ≠ none := by
  rw [ptr]
  split_ifs with h <;> simp [h]

theorem valid_eq_false_iff : l.valid = false ↔ l.ptr = none := by
  rw [ptr]
  split_ifs with h <;> simp [h]

theorem block_of_ptr (h : l.ptr = some k) : l.block = k := by
  rw [ptr] at h
  split_ifs at h
  exact some.inj h

theorem loc_of_ptr (h : l.ptr = some k) : l.loc = k := by
  rw [ptr] at h
  rw [loc]
  split_ifs at h ⊢
  exact some.inj h

theorem loc_of_none (h : l.ptr = none) : l.loc = rb815Null := by
  rw [ptr] at h
  rw [loc]
  split_ifs at h ⊢
  rfl

theorem loc_eq_getD (l : Link815) : l.loc = l.ptr.getD rb815Null := by
  rw [loc, ptr]
  split_ifs <;> rfl

theorem block_lt (l : Link815) : l.block < 65535 := by
  have := l.div8.isLt
  rw [block]
  omega

theorem loc_eq_null : l.loc = rb815Null ↔ l.ptr = none := by
  constructor
  · intro h
    rw [ptr]
    rw [loc] at h
    split_ifs at h ⊢
    · exact absurd h l.block_lt.ne
    · rfl
  · exact loc_of_none

theorem loc_eq_iff (hk : IsLoc k) : l.loc = k ↔ l.ptr = some k := by
  refine ⟨fun h => ?_, loc_of_ptr⟩
  rw [ptr]
  rw [loc] at h
  split_ifs at h ⊢
  · rw [h]
  · exact absurd h.symm hk.ne_null

@[simp] theorem block_toLoc (hk : IsLoc k) : (toLoc k).block = k := by
  obtain ⟨h1, h2⟩ := hk
  simp only [toLoc, block, Fin.val_ofNat]
  omega

theorem ptr_toLoc (hk : IsLoc k) : (toLoc k).ptr = some k := by
  rw [ptr, block_toLoc hk]
  rfl

theorem ptr_ofLoc_null : (ofLoc rb815Null).ptr = none := rfl

theorem ptr_ofLoc (hk : IsLoc k) : (ofLoc k).ptr = some k := by
  have h : (ofLoc k).valid = true := decide_eq_true hk.ne_null
  have hb : (ofLoc k).block = k := block_toLoc hk
  rw [ptr, if_pos h, hb]

theorem ptr_ofLoc_loc (h : ∀ k, l.ptr = some k → IsLoc k) : (ofLoc l.loc).ptr = l.ptr := by
  cases hp : l.ptr with
  | none => rw [loc_of_none hp, ptr_ofLoc_null]
  | some k => rw [loc_of_ptr hp, ptr_ofLoc (h k hp)]

theorem ptr_relink_loc (h : ∀ k, l.ptr = some k → IsLoc k) : (l'.relink l.loc).ptr = l.ptr := by
  cases hp : l.ptr with
  | none => rw [loc_of_none hp, relink, if_pos rfl]; rfl
  | some k => rw [loc_of_ptr hp, relink, if_neg (h k hp).ne_null, ptr_toLoc (h k hp)]

theorem relink_div8 {i : ℕ} (h : (l.relink i).valid = false) : (l.relink i).div8 = l.div8 := by
  rw [relink] at h ⊢
  split_ifs at h ⊢
  · rfl
  · simp [toLoc] at h

theorem ofLoc_div8 {i : ℕ} (h : (ofLoc i).valid = false) : (ofLoc i).div8 = 8191 := by
  obtain rfl : i = rb815Null := by simpa [ofLoc] using h
  rfl

end Link815

namespace Rb815hole

/-- The colour and the links of a descriptor. -/
def node (h : Rb815hole) : PNode ℕ := ⟨h.isBlack, h.left.ptr, h.right.ptr, h.parent.ptr⟩

variable (h : Rb815hole) (d : Side) (l : Link815)

@[simp] theorem node_black : h.node.black = h.isBlack := rfl

@[simp] theorem node_left : h.node.left = h.left.ptr := rfl

@[simp] theorem node_right : h.node.right = h.right.ptr := rfl

@[simp] theorem node_parent : h.node.parent = h.parent.ptr := rfl

@[simp] theorem node_child : h.node.child d = (h.child d).ptr := by cases d <;> rfl

@[simp] theorem child_setChild : (h.setChild d l).child d = l := by cases d <;> rfl

@[simp] theorem child_other_setChild : (h.setChild d l).child d.other = h.child d.other := by
  cases d <;> rfl

@[simp] theorem child_setChild_other : (h.setChild d.other l).child d = h.child d := by
  cases d <;> rfl

@[simp] theorem isBlack_setChild : (h.setChild d l).isBlack = h.isBlack := by cases d <;> rfl

@[simp] theorem len_setChild : (h.setChild d l).len = h.len := by cases d <;> rfl

@[simp] theorem child_withParent : ({ h with parent := l } : Rb815hole).child d = h.child d := by
  cases d <;> rfl

theorem node_setChild : (h.setChild d l).node = h.node.setChild d l.ptr := by cases d <;> rfl

end Rb815hole

namespace Rb815ctx

variable {ctx : Rb815ctx} {i k : ℕ} {hole : Rb815hole}

/-- A hole depends on its 8 bytes only. -/
theorem loadHole_congr {ctx' : Rb815ctx} (h : ∀ j < 8, ctx'.pkt (i + j) = ctx.pkt (i + j)) :
    ctx'.loadHole i = ctx.loadHole i := by
  have hword : ∀ j, j + 2 ≤ 8 → word16 ctx'.pkt (i + j) = word16 ctx.pkt (i + j) := fun j hj =>
    word16_congr (h j (by omega)) (h (j + 1) (by omega))
  have w0 := hword 0 (by omega)
  rw [Nat.add_zero] at w0
  rw [loadHole, loadHole, w0, hword 2 (by omega), hword 4 (by omega), hword 6 (by omega)]

/-- A hole that was stored is loaded again. -/
theorem loadHole_storeHole_self : (ctx.storeHole i hole).loadHole i = hole := by
  have hword : ∀ k, 2 * k + 2 ≤ 8 → word16 (ctx.storeHole i hole).pkt (i + 2 * k) =
      hole.words.getD k 0 % 65536 := fun k hk => word16_memcpy_structMem _ _ hk
  have w0 := hword 0 (by omega)
  have w1 := hword 1 (by omega)
  have w2 := hword 2 (by omega)
  have w3 := hword 3 (by omega)
  simp only [Rb815hole.words, List.getD_cons_zero, List.getD_cons_succ, Nat.mul_zero, Nat.add_zero,
    Nat.mul_one, Nat.reduceMul] at w0 w1 w2 w3
  obtain ⟨len, parent, left, right, b⟩ := hole
  have hp := parent.ofWord_toWord false
  have hl := left.ofWord_toWord false
  have hr := right.ofWord_toWord b
  simp only [Bool.toNat_false, Nat.mul_zero, Nat.add_zero] at hp hl
  rw [loadHole, w0, w1, w2, w3, hp, hl, hr]
  have hlen := len.isLt
  have hdiv := right.div8.isLt
  have hv : right.valid.toNat ≤ 1 := Bool.toNat_le _
  simp only [Rb815hole.mk.injEq, Fin.ext_iff, Fin.val_ofNat, true_and]
  refine ⟨by omega, ?_⟩
  cases b with
  | false => exact decide_eq_false (by rw [Link815.toWord, Bool.toNat_false]; omega)
  | true => exact decide_eq_true (by rw [Link815.toWord, Bool.toNat_true]; omega)

/-- A load from the buffer after a store to a descriptor or to the location that stands for none. -/
theorem loadHole_storeHole (hi : IsLoc i ∨ i = rb815Null) (hk : IsLoc k) :
    (ctx.storeHole i hole).loadHole k = if k = i then hole else ctx.loadHole k := by
  split_ifs with h
  · rw [h, loadHole_storeHole_self]
  · refine loadHole_congr fun j hj => memcpy_of_notMem ?_
    obtain ⟨hk1, hk2⟩ := hk
    rcases hi with ⟨hi1, hi2⟩ | hi
    · omega
    · rw [rb815Null] at hi
      omega

theorem loadHole_storeIf (hi : IsLoc i ∨ i = rb815Null) (hk : IsLoc k) :
    (ctx.storeIf i hole).loadHole k = if k = i then hole else ctx.loadHole k := by
  rw [storeIf]
  split_ifs with h1 h2 h2
  · exact absurd (h2.trans h1) hk.ne_null
  · rfl
  · rw [loadHole_storeHole hi hk, if_pos h2]
  · rw [loadHole_storeHole hi hk, if_neg h2]

theorem loadIf_of_isLoc (hk : IsLoc k) : ctx.loadIf k = ctx.loadHole k := if_neg hk.ne_null

/-- `hole.is_black = b` at a location. -/
def setIsBlack (ctx : Rb815ctx) (loc : ℕ) (b : Bool) : Rb815ctx :=
  ctx.storeHole loc { ctx.loadHole loc with isBlack := b }

/-- The tree of the descriptors. -/
def view (ctx : Rb815ctx) : RbTreeNocmp ℕ where
  root := if ctx.rootHole = rb815Null then none else some ctx.rootHole
  heap k := if k % 8 = 0 ∧ k + 8 ≤ 65535 then (ctx.loadHole k).node else ⟨false, none, none, none⟩

theorem view_root_of_isLoc (h : IsLoc ctx.rootHole) : ctx.view.root = some ctx.rootHole :=
  if_neg h.ne_null

theorem view_root_congr {ctx' : Rb815ctx} (h : ctx'.rootHole = ctx.rootHole) :
    ctx'.view.root = ctx.view.root := by
  rw [view, view, h]

/-- A node of the view is the hole at its place in the packet. -/
theorem view_heap (hk : IsLoc k) : ctx.view.heap k = (ctx.loadHole k).node := if_pos hk

end Rb815ctx

/-! ## What the tree functions keep -/

/-- From `h` to `h'` the colour and the links became those of `n`. The length stays, and an invalid
link keeps its block number or gets that of `RB815_HOLE_NULL`. -/
structure Relinked (h h' : Rb815hole) (n : PNode ℕ) : Prop where
  node : h'.node = n
  len : h'.len = h.len
  stale : ∀ d, (h'.child d).valid = false →
    (h'.child d).div8 = (h.child d).div8 ∨ (h'.child d).div8 = 8191

namespace Relinked

variable {h : Rb815hole} {l : Link815}

theorem refl (h : Rb815hole) : Relinked h h h.node := ⟨rfl, rfl, fun _ _ => .inl rfl⟩

theorem setParent (h : Rb815hole) (l : Link815) :
    Relinked h { h with parent := l } { h.node with parent := l.ptr } :=
  ⟨rfl, rfl, fun d _ => .inl (by rw [Rb815hole.child_withParent])⟩

theorem setBlack (h : Rb815hole) (b : Bool) :
    Relinked h { h with isBlack := b } { h.node with black := b } :=
  ⟨rfl, rfl, fun d _ => .inl (by cases d <;> rfl)⟩

theorem setChild (h : Rb815hole) (d : Side) (l : Link815)
    (hl : l.valid = false → l.div8 = (h.child d).div8 ∨ l.div8 = 8191) :
    Relinked h (h.setChild d l) (h.node.setChild d l.ptr) := by
  refine ⟨h.node_setChild d l, h.len_setChild d l, fun e he => ?_⟩
  by_cases hed : e = d
  · subst hed
    rw [Rb815hole.child_setChild] at he ⊢
    exact hl he
  · obtain rfl := Side.eq_other_of_ne hed
    exact .inl (by rw [Rb815hole.child_other_setChild])

theorem setLinks (h : Rb815hole) (d : Side) (l1 l2 l3 : Link815)
    (h1 : l1.valid = false → l1.div8 = (h.child d).div8 ∨ l1.div8 = 8191)
    (h2 : l2.valid = false → l2.div8 = (h.child d.other).div8 ∨ l2.div8 = 8191) :
    Relinked h { (h.setChild d l1).setChild d.other l2 with parent := l3 }
      (.mk' d h.isBlack l1.ptr l2.ptr l3.ptr) := by
  refine ⟨?_, by simp, fun e he => ?_⟩
  · cases d <;> rfl
  · by_cases hed : e = d
    · subst hed
      rw [Rb815hole.child_withParent, Rb815hole.child_setChild_other,
        Rb815hole.child_setChild] at he ⊢
      exact h1 he
    · obtain rfl := Side.eq_other_of_ne hed
      rw [Rb815hole.child_withParent, Rb815hole.child_setChild] at he ⊢
      exact h2 he

theorem congr {h' : Rb815hole} {n n' : PNode ℕ} (hr : Relinked h h' n) (hn : n = n') :
    Relinked h h' n' := hn ▸ hr

end Relinked

namespace Rb815hole

theorem replaceChild_eq {parent : Rb815hole} {loc : ℕ} (new : ℕ)
    (h : parent.node.left = some loc ∨ parent.node.right = some loc) :
    parent.replaceChild loc new =
      some (parent.setChild (if parent.node.left = some loc then .left else .right)
        (.toLoc new)) := by
  rw [node_left, node_right] at h
  by_cases hl : parent.left.ptr = some loc
  · simp [replaceChild, Link815.pointsTo_iff, hl, setChild]
  · simp [replaceChild, Link815.pointsTo_iff, hl, h.resolve_left hl, setChild]

end Rb815hole

namespace Rb815ctx

variable {D : ℕ → Prop} {P : ℕ × ℕ → Prop} {ctx : Rb815ctx}

theorem touches_storeHole {i : ℕ} (hi : Slot D i) (hP : P (i, 8)) (hole : Rb815hole) :
    Touches D P ctx.toPktBuf (ctx.storeHole i hole).toPktBuf :=
  Touches.store hi.mem hP _ _

theorem touches_storeIf {i : ℕ} (hi : i = rb815Null ∨ Slot D i ∧ P (i, 8)) (hole : Rb815hole) :
    Touches D P ctx.toPktBuf (ctx.storeIf i hole).toPktBuf := by
  rw [storeIf]
  split_ifs with h
  · exact .refl _
  · obtain ⟨h1, h2⟩ := hi.resolve_left h
    exact touches_storeHole h1 h2 hole

@[simp] theorem storeHole_rootHole (i : ℕ) (hole : Rb815hole) :
    (ctx.storeHole i hole).rootHole = ctx.rootHole := rfl

@[simp] theorem storeIf_rootHole (i : ℕ) (hole : Rb815hole) :
    (ctx.storeIf i hole).rootHole = ctx.rootHole := by
  rw [storeIf]
  split_ifs <;> rfl

/-! ## Rotations -/

/-- The link above a rotation. -/
theorem rotateAbove_spec {loc : ℕ} (qLoc : ℕ) (l : Link815) (q : Rb815hole)
    (hl : ∀ u, l.ptr = some u → IsLoc u ∧
      ((ctx.view.heap u).left = some loc ∨ (ctx.view.heap u).right = some loc)) :
    ∃ root q' parent, ctx.rotateAbove loc qLoc l.loc q (ctx.loadIf l.loc) =
      some (root, q', parent) ∧
      root = (if l.ptr = none then qLoc else ctx.rootHole) ∧
      (∃ l', q' = { q with parent := l' } ∧ l'.ptr = l.ptr) ∧
      ∀ u, l.ptr = some u →
        parent = (ctx.loadHole u).setChild (sideOf ctx.view.heap u loc) (.toLoc qLoc) := by
  cases hp : l.ptr with
  | none =>
    rw [Link815.loc_of_none hp, rotateAbove, if_pos rfl]
    exact ⟨_, _, _, rfl, rfl, ⟨_, rfl, rfl⟩, by simp⟩
  | some u =>
    obtain ⟨hu, hlink⟩ := hl u hp
    rw [view_heap hu] at hlink
    rw [Link815.loc_of_ptr hp, rotateAbove, if_neg hu.ne_null, loadIf_of_isLoc hu,
      Rb815hole.replaceChild_eq qLoc hlink]
    refine ⟨_, _, _, rfl, by simp, ⟨_, rfl, Link815.ptr_toLoc hu⟩, fun v hv => ?_⟩
    obtain rfl : u = v := by simpa using hv
    rw [sideOf, view_heap hu]

theorem loadIf_loc {l : Link815} {k : ℕ} (hk : IsLoc k) (h : l.ptr = some k) :
    ctx.loadIf l.loc = ctx.loadHole k := by
  rw [Link815.loc_of_ptr h, loadIf_of_isLoc hk]

/-- The links of the nodes in `S` stay in `S`, which has room for a descriptor at each of its
locations. -/
structure Room (D : ℕ → Prop) (P : ℕ × ℕ → Prop) (ctx : Rb815ctx) (S : Multiset ℕ) : Prop where
  slot : ∀ k ∈ S, Slot D k
  store : ∀ k ∈ S, P (k, 8)
  child : ∀ k ∈ S, ∀ d x, ((ctx.loadHole k).child d).ptr = some x → x ∈ S
  parent : ∀ k ∈ S, ∀ x, (ctx.loadHole k).parent.ptr = some x → x ∈ S

namespace Room

variable {S : Multiset ℕ} {l : Link815} {k : ℕ}

theorem isLoc (h : Room D P ctx S) (hk : k ∈ S) : IsLoc k :=
  ⟨(h.slot k hk).aligned, (h.slot k hk).fits⟩

theorem of_linked (hlink : Linked ctx.view.heap S) (hslot : ∀ k ∈ S, Slot D k)
    (hP : ∀ k ∈ S, P (k, 8)) : Room D P ctx S := by
  have hview : ∀ k ∈ S, ctx.view.heap k = (ctx.loadHole k).node := fun k hk =>
    view_heap ⟨(hslot k hk).aligned, (hslot k hk).fits⟩
  refine ⟨hslot, hP, fun k hk d x hx => ?_, fun k hk x hx => ?_⟩
  · rw [← Rb815hole.node_child, ← hview k hk] at hx
    cases d with
    | left => exact (hlink.left k hk x hx).1
    | right => exact (hlink.right k hk x hx).1
  · rw [← Rb815hole.node_parent, ← hview k hk] at hx
    exact (hlink.parent k hk x hx).1

theorem isLoc_or (h : Room D P ctx S) (hl : ∀ x, l.ptr = some x → x ∈ S) :
    IsLoc l.loc ∨ l.loc = rb815Null := by
  cases hp : l.ptr with
  | none => exact .inr (Link815.loc_of_none hp)
  | some k =>
    rw [Link815.loc_of_ptr hp]
    exact .inl (h.isLoc (hl k hp))

theorem touches_storeIf (h : Room D P ctx S) (hl : ∀ x, l.ptr = some x → x ∈ S) (ctx' : Rb815ctx)
    (hole : Rb815hole) : Touches D P ctx'.toPktBuf (ctx'.storeIf l.loc hole).toPktBuf := by
  refine Rb815ctx.touches_storeIf ?_ hole
  cases hp : l.ptr with
  | none => exact .inl (Link815.loc_of_none hp)
  | some k =>
    rw [Link815.loc_of_ptr hp]
    exact .inr ⟨h.slot k (hl k hp), h.store k (hl k hp)⟩

theorem touches_storeHole (h : Room D P ctx S) (hk : k ∈ S) (ctx' : Rb815ctx) (hole : Rb815hole) :
    Touches D P ctx'.toPktBuf (ctx'.storeHole k hole).toPktBuf :=
  Rb815ctx.touches_storeHole (h.slot k hk) (h.store k hk) hole

end Room

/-- The descriptor at `k` after the rotation of `p` to side `d` of `q`, whose link to the parent
becomes `l`. -/
def rotatedHole (d : Side) (ctx : Rb815ctx) (p q : ℕ) (l : Link815) (k : ℕ) : Rb815hole :=
  let hole := ctx.loadHole p
  let qHole := ctx.loadHole q
  if hole.parent.ptr = some k then
    (ctx.loadHole k).setChild (sideOf ctx.view.heap k p) (.toLoc q)
  else if k = q then
    { (qHole.setChild d (.toLoc p)).setChild d.other
        ((qHole.child d.other).relink (qHole.child d.other).loc) with parent := l }
  else if k = p then
    { (hole.setChild d ((hole.child d).relink (hole.child d).loc)).setChild d.other
        ((hole.child d.other).relink (qHole.child d).loc) with parent := .toLoc q }
  else if (qHole.child d).ptr = some k ∨ (hole.child d).ptr = some k then
    { ctx.loadHole k with parent := .toLoc p }
  else if (qHole.child d.other).ptr = some k then { ctx.loadHole k with parent := .toLoc q }
  else ctx.loadHole k

section Rotate

variable {S : Multiset ℕ} {d : Side} {p q : ℕ}

theorem subtree_loads (d : Side) {near inner far lp lq : Link815} {k : ℕ} (hk : IsLoc k)
    (hdis : far.ptr = some k → inner.ptr ≠ some k ∧ near.ptr ≠ some k) :
    (if (d.pick far near).ptr = some k then
        d.pick { ctx.loadIf far.loc with parent := lq } { ctx.loadIf near.loc with parent := lp }
      else if inner.ptr = some k then { ctx.loadIf inner.loc with parent := lp }
      else if (d.pick near far).ptr = some k then
        d.pick { ctx.loadIf near.loc with parent := lp } { ctx.loadIf far.loc with parent := lq }
      else ctx.loadHole k) =
    if inner.ptr = some k ∨ near.ptr = some k then { ctx.loadHole k with parent := lp }
    else if far.ptr = some k then { ctx.loadHole k with parent := lq }
    else ctx.loadHole k := by
  by_cases hf : far.ptr = some k
  · obtain ⟨hi, hn⟩ := hdis hf
    cases d <;> simp [Side.pick, hf, hi, hn, loadIf_loc hk hf]
  · by_cases hi : inner.ptr = some k <;> by_cases hn : near.ptr = some k
    · cases d <;> simp [Side.pick, hf, hi, hn, loadIf_loc hk hi, loadIf_loc hk hn]
    · cases d <;> simp [Side.pick, hf, hi, hn, loadIf_loc hk hi]
    · cases d <;> simp [Side.pick, hf, hi, hn, loadIf_loc hk hn]
    · cases d <;> simp [Side.pick, hf, hi, hn]

/-- The holes after a rotation. -/
theorem rotate_loads (hr : Rotatable d ctx.view.heap p q) (hroom : Room D P ctx S) (hp : p ∈ S) :
    ∃ ctx' l, ctx.rotate d p = some ctx' ∧ l.ptr = (ctx.loadHole p).parent.ptr ∧
      (∀ k, IsLoc k → ctx'.loadHole k = rotatedHole d ctx p q l k) ∧
      ctx'.rootHole = (if (ctx.loadHole p).parent.ptr = none then q else ctx.rootHole) ∧
      Touches D P ctx.toPktBuf ctx'.toPktBuf := by
  have hpl := hroom.isLoc hp
  have hptr : ((ctx.loadHole p).child d.other).ptr = some q := by
    rw [← Rb815hole.node_child, ← view_heap hpl]
    exact hr.child
  have hq : q ∈ S := hroom.child p hp _ q hptr
  have hup : ∀ u, (ctx.loadHole p).parent.ptr = some u → IsLoc u ∧
      ((ctx.view.heap u).left = some p ∨ (ctx.view.heap u).right = some p) := fun u hu =>
    ⟨hroom.isLoc (hroom.parent p hp u hu), (hr.above u (by rw [view_heap hpl]; exact hu)).2.1⟩
  obtain ⟨root, q', parent', habv, hroot, ⟨l, hq', hl⟩, hparent⟩ :=
    rotateAbove_spec q (ctx.loadHole p).parent
      (((ctx.loadHole q).setChild d (.toLoc p)).setChild d.other
        (((ctx.loadHole q).child d.other).relink ((ctx.loadHole q).child d.other).loc)) hup
  have hvalid : ((ctx.loadHole p).child d.other).valid ≠ false := by
    rw [ne_eq, Link815.valid_eq_false_iff, hptr]
    simp
  simp only [rotate, Link815.block_of_ptr hptr, if_neg hvalid, Rb815hole.child_other_setChild, habv,
    bind_eq_bind, bind_some]
  have hnear := hroom.child p hp d
  have hinner := hroom.child q hq d
  have hfar := hroom.child q hq d.other
  have hac : (∀ x, (d.pick ((ctx.loadHole p).child d) ((ctx.loadHole q).child d.other)).ptr =
    some x →
      x ∈ S) ∧ ∀ x, (d.pick ((ctx.loadHole q).child d.other) ((ctx.loadHole p).child d)).ptr =
        some x →
      x ∈ S := by
    cases d
    · exact ⟨hnear, hfar⟩
    · exact ⟨hfar, hnear⟩
  have hpick : ∀ l l' : Link815, d.pick l.loc l'.loc = (d.pick l l').loc := fun l l' => by
    cases d <;> rfl
  simp only [hpick]
  refine ⟨_, l, rfl, hl, fun k hk => ?_, by simp [hroot], ?_⟩
  · rw [loadHole_storeIf (hroom.isLoc_or (hroom.parent p hp)) hk,
      loadHole_storeHole (.inl (hroom.isLoc hq)) hk, loadHole_storeHole (.inl hpl) hk,
      loadHole_storeIf (hroom.isLoc_or hac.2) hk, loadHole_storeIf (hroom.isLoc_or hinner) hk,
      loadHole_storeIf (hroom.isLoc_or hac.1) hk]
    have hloc : ∀ l : Link815, k = l.loc ↔ l.ptr = some k := fun l =>
      eq_comm.trans (Link815.loc_eq_iff hk)
    -- the far subtree is neither of the other two
    have hdis : ((ctx.loadHole q).child d.other).ptr = some k →
        ((ctx.loadHole q).child d).ptr ≠ some k ∧ ((ctx.loadHole p).child d).ptr ≠ some k := by
      intro hk'
      rw [← Rb815hole.node_child, ← view_heap (hroom.isLoc hq)] at hk' ⊢
      rw [← Rb815hole.node_child, ← view_heap hpl]
      obtain ⟨h1, -, -, h2⟩ := hr.far k hk'
      refine ⟨h2, fun hn => hr.ne ?_⟩
      simpa [(hr.near k hn).1] using h1
    simp only [hloc, rotatedHole, hq']
    by_cases h1 : (ctx.loadHole p).parent.ptr = some k
    · rw [if_pos h1, if_pos h1, hparent k h1]
    by_cases h2 : k = q
    · rw [if_neg h1, if_pos h2, if_neg h1, if_pos h2]
    by_cases h3 : k = p
    · rw [if_neg h1, if_neg h2, if_pos h3, if_neg h1, if_neg h2, if_pos h3]
    rw [if_neg h1, if_neg h2, if_neg h3, if_neg h1, if_neg h2, if_neg h3]
    exact subtree_loads d hk hdis
  · have h0 : Touches D P ctx.toPktBuf { ctx with rootHole := root }.toPktBuf := .refl _
    exact (((((h0.trans (hroom.touches_storeIf hac.1 _ _)).trans
      (hroom.touches_storeIf hinner _ _)).trans (hroom.touches_storeIf hac.2 _ _)).trans
      (hroom.touches_storeHole hp _ _)).trans (hroom.touches_storeHole hq _ _)).trans
      (hroom.touches_storeIf (hroom.parent p hp) _ _)

/-- Both rotations are the rotation of the linked tree. -/
theorem relinked_rotatedHole (hr : Rotatable d ctx.view.heap p q) (hroom : Room D P ctx S)
    (hp : p ∈ S) {l : Link815} (hl : l.ptr = (ctx.loadHole p).parent.ptr) {k : ℕ} (hk : IsLoc k) :
    Relinked (ctx.loadHole k) (rotatedHole d ctx p q l k) (Lib.rotate d ctx.view.heap p q k) := by
  have hpl := hroom.isLoc hp
  have hptr : ((ctx.loadHole p).child d.other).ptr = some q := by
    rw [← Rb815hole.node_child, ← view_heap hpl]
    exact hr.child
  have hq : q ∈ S := hroom.child p hp _ q hptr
  have hql := hroom.isLoc hq
  obtain ⟨hne, -, hnear, hinner, hfar, habove⟩ := hr
  simp only [view_heap hpl, view_heap hql, Rb815hole.node_child, Rb815hole.node_parent]
    at hnear hinner hfar habove
  simp only [rotatedHole, Lib.rotate, view_heap hpl, view_heap hql, view_heap hk,
    Rb815hole.node_child, Rb815hole.node_parent]
  have hto : ∀ {i : ℕ}, (Link815.toLoc i).valid ≠ false := by simp [Link815.toLoc]
  by_cases h1 : k = p
  · subst h1
    have h2 : (ctx.loadHole k).parent.ptr ≠ some k := fun he => (habove k he).1.1 rfl
    rw [if_neg h2, if_neg hne, if_pos rfl, if_pos rfl]
    refine (Relinked.setLinks _ d _ _ _ (fun h => .inl (Link815.relink_div8 h))
      fun h => .inl (Link815.relink_div8 h)).congr ?_
    rw [Link815.ptr_relink_loc fun x hx => hroom.isLoc (hroom.child k hp d x hx),
      Link815.ptr_relink_loc fun x hx => hroom.isLoc (hroom.child q hq d x hx),
      Link815.ptr_toLoc hql]
    cases d <;> rfl
  by_cases h2 : k = q
  · subst h2
    have h3 : (ctx.loadHole p).parent.ptr ≠ some k := fun he => (habove k he).1.2 rfl
    rw [if_neg h3, if_pos rfl, if_neg h1, if_pos rfl]
    refine (Relinked.setLinks _ d _ _ _ (fun h => absurd h hto)
      fun h => .inl (Link815.relink_div8 h)).congr ?_
    rw [Link815.ptr_relink_loc fun x hx => hroom.isLoc (hroom.child k hq d.other x hx), hl,
      Link815.ptr_toLoc hpl]
    cases d <;> rfl
  rw [if_neg h2, if_neg h1, if_neg h1, if_neg h2]
  by_cases h3 : (ctx.loadHole p).parent.ptr = some k
  · rw [if_pos h3, if_neg (habove k h3).2.2.2.1, if_pos h3]
    exact (Relinked.setChild _ _ _ fun h => absurd h hto).congr (by rw [Link815.ptr_toLoc hql])
  rw [if_neg h3, if_neg h3]
  have hkeep : ∀ x, IsLoc x → (ctx.view.heap k).parent = some x → Relinked (ctx.loadHole k)
      { ctx.loadHole k with parent := .toLoc x } (ctx.loadHole k).node := by
    intro x hx hpar
    rw [view_heap hk, Rb815hole.node_parent] at hpar
    refine (Relinked.setParent _ _).congr ?_
    rw [Link815.ptr_toLoc hx, ← hpar]
    rfl
  by_cases h4 : ((ctx.loadHole q).child d).ptr = some k
  · rw [if_pos (.inl h4), if_pos h4]
    exact (Relinked.setParent _ _).congr (by rw [Link815.ptr_toLoc hpl])
  rw [if_neg h4]
  split_ifs with h5 h6
  · exact hkeep p hpl (hnear k (h5.resolve_left h4)).1
  · exact hkeep q hql (hfar k h6).1
  · exact .refl _

end Rotate

end Rb815ctx

/-! ## Linked trees in the buffer -/

/-- What a tree function does to the rest of the context: only descriptors are written, and the
lengths of the holes stay. -/
structure TreeStep (D : ℕ → Prop) (P : ℕ × ℕ → Prop) (ctx ctx' : Rb815ctx) : Prop where
  touches : Touches D P ctx.toPktBuf ctx'.toPktBuf
  len : ∀ k, IsLoc k → (ctx'.loadHole k).len = (ctx.loadHole k).len

namespace TreeStep

variable {D : ℕ → Prop} {P : ℕ × ℕ → Prop} {ctx ctx' ctx'' : Rb815ctx}

theorem refl (ctx : Rb815ctx) : TreeStep D P ctx ctx := ⟨.refl _, fun _ _ => rfl⟩

theorem trans (h : TreeStep D P ctx ctx') (h' : TreeStep D P ctx' ctx'') : TreeStep D P ctx ctx'' :=
  ⟨h.touches.trans h'.touches, fun k hk => (h'.len k hk).trans (h.len k hk)⟩

end TreeStep

/-- `y` is the neighbour of `x` on side `d`. -/
def Adjacent (L : List ℕ) (d : Side) (x y : ℕ) : Prop :=
  ∃ pre post, L = pre ++ d.pick [y, x] [x, y] ++ post

/-- `A` is a set of block numbers that an invalid link of the tree with the ascending nodes `L` may
be left with: it has what the tree functions leave, that of `RB815_HOLE_NULL` and that of the
neighbour on the side of the link, and at most those and 0 lead to a node. -/
structure AllowsStale (A : ℕ → Side → Fin 8192 → Prop) (L : List ℕ) : Prop where
  sorted : L.Pairwise (· < ·)
  null : ∀ k d, A k d 8191
  adjacent : ∀ k d (s : Fin 8192), Adjacent L d k (s * 8) → A k d s
  only : ∀ k ∈ L, ∀ d (s : Fin 8192), A k d s → (s : ℕ) * 8 ∈ L → (s : ℕ) * 8 ≠ 0 →
    d.Lt k (s * 8) ∧ ∀ z ∈ L, ¬(d.Lt k z ∧ d.Lt z (s * 8))

/-- The descriptors are the nodes of `T`, with room for each of them. -/
structure Linked815 (D : ℕ → Prop) (ctx : Rb815ctx) (T : CTree ℕ) : Prop where
  rep : Rep ctx.view T
  slot : ∀ k ∈ T.keys, Slot D k

/-- The descriptors are the nodes of the search tree `T`, and what is left in invalid links is in
`A`. -/
structure Tree815 (D : ℕ → Prop) (A : ℕ → Side → Fin 8192 → Prop) (ctx : Rb815ctx)
    (T : CTree ℕ) : Prop extends Linked815 D ctx T where
  allows : AllowsStale A T.toList
  stale : ∀ k ∈ T.keys, ∀ d, ((ctx.loadHole k).child d).valid = false →
    A k d ((ctx.loadHole k).child d).div8

section

variable {D : ℕ → Prop} {W : ℕ × ℕ → Prop} {A : ℕ → Side → Fin 8192 → Prop} {ctx : Rb815ctx}
  {T : CTree ℕ} {C : TPath ℕ} {d : Side} {c : Bool} {k : ℕ} {near far : CTree ℕ}

namespace Linked815

theorem isLoc (h : Linked815 D ctx T) (hk : k ∈ T.keys) : IsLoc k :=
  ⟨(h.slot k hk).aligned, (h.slot k hk).fits⟩

theorem room (h : Linked815 D ctx T) (hW : ∀ k, Slot D k → W (k, 8)) : ctx.Room D W T.keys :=
  .of_linked (h.rep.shape.linked h.rep.nodup) h.slot fun k hk => hW k (h.slot k hk)

theorem node_eq (h : Linked815 D ctx T) (hk : k ∈ T.keys) :
    (ctx.loadHole k).node = ctx.view.heap k := by
  rw [Rb815ctx.view_heap (h.isLoc hk)]

theorem loadHole_node (h : Linked815 D ctx (C.fill (.mk d c k near far))) :
    (ctx.loadHole k).node = .mk' d c near.root? far.root? C.parent? := by
  rw [h.node_eq (by simp), h.rep.heap_eq]

end Linked815

namespace Tree815

/-- Relinked holes that represent a tree of the same keys keep the invariant. -/
theorem of_relinked {ctx' : Rb815ctx} {T' : CTree ℕ} {t : RbTreeNocmp ℕ} (h : Tree815 D A ctx T)
    (hrep : Rep t T') (hlist : T'.toList = T.toList) (hroot : ctx'.view.root = t.root)
    (hnode : ∀ k ∈ T.keys, Relinked (ctx.loadHole k) (ctx'.loadHole k) (t.heap k))
    (hcut : ∀ k ∈ T.keys, ∀ d, (t.heap k).child d = none →
      ((ctx.loadHole k).child d).valid = true → A k d ((ctx.loadHole k).child d).div8) :
    Tree815 D A ctx' T' := by
  have hkeys : T'.keys = T.keys := by rw [← coe_toList, hlist, coe_toList]
  refine ⟨⟨hrep.congr hroot fun k hk => ?_, by rw [hkeys]; exact h.slot⟩,
    by rw [hlist]; exact h.allows, fun k hk d hd => ?_⟩
  · rw [hkeys] at hk
    rw [Rb815ctx.view_heap (h.isLoc hk)]
    exact (hnode k hk).node
  · rw [hkeys] at hk
    rcases (hnode k hk).stale d hd with he | he
    · rw [he]
      cases hv : ((ctx.loadHole k).child d).valid with
      | false => exact h.stale k hk d hv
      | true =>
        refine hcut k hk d ?_ hv
        rw [← (hnode k hk).node, Rb815hole.node_child]
        exact Link815.valid_eq_false_iff.mp hd
    · rw [he]
      exact h.allows.null k d

variable {c' : Bool}

/-- A rotation of a linked tree. -/
theorem rotate {p q : ℕ} {a b e : CTree ℕ} (hW : ∀ k, Slot D k → W (k, 8))
    (h : Tree815 D A ctx (C.fill (.mk d c p a (.mk d c' q b e)))) :
    ∃ ctx', ctx.rotate d p = some ctx' ∧
      Tree815 D A ctx' (C.fill (.mk d c' q (.mk d c p a b) e)) ∧ TreeStep D W ctx ctx' := by
  have hr := rotatable_of_shape h.rep.shape h.rep.nodup
  have hroom := h.room hW
  have hp : p ∈ (C.fill (.mk d c p a (.mk d c' q b e))).keys := by simp
  obtain ⟨ctx', l, hrot, hl, hload, hroot, ht⟩ := Rb815ctx.rotate_loads hr hroom hp
  have hnode : ∀ k, IsLoc k → Relinked (ctx.loadHole k) (ctx'.loadHole k)
      (Lib.rotate d ctx.view.heap p q k) := fun k hk => by
    rw [hload k hk]
    exact Rb815ctx.relinked_rotatedHole hr hroom hp hl hk
  have hlist : (C.fill (.mk d c' q (.mk d c p a b) e)).toList =
      (C.fill (.mk d c p a (.mk d c' q b e))).toList :=
    toList_fill_congr C (toList_rotate ..)
  refine ⟨ctx', hrot, h.of_relinked h.rep.rotate hlist ?_ (fun k hk => hnode k (h.isLoc hk))
    fun k hk e' he' hv => ?_, ht, fun k hk => (hnode k hk).len⟩
  · simp only [Rb815ctx.view_heap (h.isLoc hp), Rb815hole.node_parent]
    split_ifs with hpar
    · rw [if_pos hpar] at hroot
      have hq : IsLoc q := h.isLoc (by simp)
      rw [Rb815ctx.view_root_of_isLoc (hroot ▸ hq), hroot]
    · rw [if_neg hpar] at hroot
      exact Rb815ctx.view_root_congr hroot
  · rcases child_of_rotate_child he' with hn | ⟨rfl, rfl, hb⟩
    · rw [← h.node_eq hk, Rb815hole.node_child] at hn
      exact absurd hn (Link815.valid_iff.mp hv)
    · -- without a subtree between them the two nodes are neighbours
      have hq : Rep ctx.view (TPath.fill (⟨d.other, c, k, a⟩ :: C) (.mk d c' q b e)) := by
        rw [TPath.fill_cons, Frame.fill, mk_other]
        exact h.rep
      rw [hq.heap_eq, PNode.child_mk', root?_eq_none] at hb
      subst hb
      have hblock : (((ctx.loadHole k).child d.other).div8 : ℕ) * 8 = q := by
        refine Link815.block_of_ptr ?_
        rw [← Rb815hole.node_child, h.loadHole_node, PNode.child_other_mk', root?_mk]
      refine h.allows.adjacent k d.other _ ?_
      rw [hblock, TPath.toList_fill]
      cases d with
      | left =>
        exact ⟨C.before ++ a.toList, e.toList ++ C.after, by
            simp [CTree.mk, CTree.toList, Side.pick, Side.other]⟩
      | right =>
        exact ⟨C.before ++ e.toList, a.toList ++ C.after, by
            simp [CTree.mk, CTree.toList, Side.pick, Side.other]⟩

/-- A rotation to the other side. -/
theorem rotate_other {p q : ℕ} {a b e : CTree ℕ} (hW : ∀ k, Slot D k → W (k, 8))
    (h : Tree815 D A ctx (C.fill (.mk d c p (.mk d c' q a b) e))) :
    ∃ ctx', ctx.rotate d.other p = some ctx' ∧
      Tree815 D A ctx' (C.fill (.mk d c' q a (.mk d c p b e))) ∧ TreeStep D W ctx ctx' := by
  have h' : Tree815 D A ctx (C.fill (.mk d.other c p e (.mk d.other c' q b a))) := by
    rw [mk_other, mk_other]
    exact h
  obtain ⟨ctx', hctx', h', hs⟩ := h'.rotate hW
  rw [mk_other, mk_other] at h'
  exact ⟨ctx', hctx', h', hs⟩

/-- A new colour for a node of a linked tree. -/
theorem paint (hW : ∀ k, Slot D k → W (k, 8)) (h : Tree815 D A ctx (C.fill (.mk d c k near far)))
    (b : Bool) :
    Tree815 D A (ctx.setIsBlack k b) (C.fill (.mk d b k near far)) ∧
      TreeStep D W ctx (ctx.setIsBlack k b) := by
  have hk : k ∈ (C.fill (.mk d c k near far)).keys := by simp
  have hload : ∀ i, IsLoc i → Relinked (ctx.loadHole i) ((ctx.setIsBlack k b).loadHole i)
      (Lib.paint ctx.view.heap k b i) := by
    intro i hi
    rw [Rb815ctx.setIsBlack, Rb815ctx.loadHole_storeHole (.inl (h.isLoc hk)) hi]
    split_ifs with he
    · subst he
      rw [Lib.paint, Function.update_self, ← h.node_eq hk]
      exact .setBlack _ _
    · rw [Lib.paint, Function.update_of_ne he, Rb815ctx.view_heap hi]
      exact .refl _
  refine ⟨h.of_relinked (h.rep.setIsBlack b) ?_ rfl (fun i hi => hload i (h.isLoc hi))
    fun i hi e he hv => ?_, (h.room hW).touches_storeHole hk _ _, fun i hi => (hload i hi).len⟩
  · exact toList_fill_congr C (toList_mk_congr d rfl rfl)
  · rw [RbTreeNocmp.setIsBlack, child_paint, ← h.node_eq hi, Rb815hole.node_child] at he
    exact absurd he (Link815.valid_iff.mp hv)

/-- A new colour for the near child. -/
theorem paint_near {e : Side} {x : ℕ} {u v : CTree ℕ} (hW : ∀ k, Slot D k → W (k, 8))
    (h : Tree815 D A ctx (C.fill (.mk d c k (.mk e c' x u v) far))) (b : Bool) :
    Tree815 D A (ctx.setIsBlack x b) (C.fill (.mk d c k (.mk e b x u v) far)) ∧
      TreeStep D W ctx (ctx.setIsBlack x b) :=
  paint (C := ⟨d, c, k, far⟩ :: C) hW h b

theorem paint_far {e : Side} {x : ℕ} {u v : CTree ℕ} (hW : ∀ k, Slot D k → W (k, 8))
    (h : Tree815 D A ctx (C.fill (.mk d c k near (.mk e c' x u v)))) (b : Bool) :
    Tree815 D A (ctx.setIsBlack x b) (C.fill (.mk d c k near (.mk e b x u v))) ∧
      TreeStep D W ctx (ctx.setIsBlack x b) := by
  rw [← mk_other] at h ⊢
  exact h.paint_near hW b

end Tree815

end

end Pptk.Ipfrag
