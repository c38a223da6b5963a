import Pptk.Ipfrag.Reass
import Pptk.Rbtree.Correct

/-!
# The red-black tree engine

Model of `ipfrag/iprbexplicit.c`. The holes are the nodes of a red-black tree. One
of them is part of the context, every other one is part of the packet that
created it, so a packet may only be freed while its hole is not in the tree.
Holes are changed in place, and a new node is hung in by hand beside the hole it
was split from; the comparison function is only used by `rb_tree_insert`.

Main result: `addData_spec`.
-/

namespace Pptk.Ipfrag

open Pptk.Lib Pptk.Iphdr Pptk.Rbtree Function TPath

/-- Where a `struct rbhole` lives: in the context, or in the packet with number `k`. -/
inductive RbholeLoc
  | firstHole
  | ofPacket (k : ℕ)
deriving DecidableEq, Repr

/-- `struct rb_explicit_reassctx` (iprbexplicit.h:11-17). `packetList` and `freed` hold the numbers
of the packets that the context keeps and of those it has freed; `rbhole` holds the ranges of all
`struct rbhole`s and `holeTree` their nodes. -/
structure RbExplicitReassctx where
  packetList : List (ℕ × Packet)
  holeTree : RbTreeNocmp RbholeLoc
  rbhole : RbholeLoc → Hole
  mostRestrictingLast : ℕ
  ipv6 : Bool
  freed : List ℕ

/-- `rb_hole_tree_cmp` (iprbexplicit.c:12-26). -/
def rbHoleTreeCmp (rbhole : RbholeLoc → Hole) (a b : RbholeLoc) : Option ℤ :=
  if (rbhole a).last < (rbhole b).first then some (-1)
  else if (rbhole b).last < (rbhole a).first then some 1
  else none

/-- `rb_explicit_reassctx_init` (iprbexplicit.c:28-37), over memory with the contents `heap` and
`rbhole`. -/
def rbExplicitReassctxInit (heap : Heap RbholeLoc) (rbhole : RbholeLoc → Hole) (ipv6 : Bool) :
    Option RbExplicitReassctx := do
  let rbhole := update rbhole .firstHole ⟨0, 65535⟩
  let t ← RbTreeNocmp.insert (rbHoleTreeCmp rbhole) 1 ⟨none, heap⟩ .firstHole
  some ⟨[], t, rbhole, 65535, ipv6, []⟩

/-- `rb_explicit_reassctx_complete` (iprbexplicit.h:21-24). -/
def rbExplicitReassctxComplete (ctx : RbExplicitReassctx) : Bool := ctx.holeTree.root.isNone

namespace RbExplicitReassctx

/-- More than the number of holes that can be in the tree. -/
def bound (ctx : RbExplicitReassctx) : ℕ := ctx.packetList.length + 2

/-- `hole->first = v`, a `uint16_t`. -/
def setFirst (ctx : RbExplicitReassctx) (n : RbholeLoc) (v : ℕ) : RbExplicitReassctx :=
  { ctx with rbhole := update ctx.rbhole n { ctx.rbhole n with first := v % 65536 } }

/-- `hole->last = v`, a `uint16_t`. -/
def setLast (ctx : RbExplicitReassctx) (n : RbholeLoc) (v : ℕ) : RbExplicitReassctx :=
  { ctx with rbhole := update ctx.rbhole n { ctx.rbhole n with last := v % 65536 } }

end RbExplicitReassctx

/-- `repair_most_restricting` (iprbexplicit.c:120-145). -/
def repairMostRestricting : ℕ → RbExplicitReassctx → Option RbExplicitReassctx
  | 0, _ => none
  | fuel + 1, ctx => do
    match ← ctx.holeTree.rightmost ctx.bound with
    | none => some ctx
    | some node =>
      if (ctx.rbhole node).first > ctx.mostRestrictingLast then
        let t ← ctx.holeTree.delete ctx.bound node
        repairMostRestricting fuel { ctx with holeTree := t }
      else if (ctx.rbhole node).last > ctx.mostRestrictingLast then
        some (ctx.setLast node ctx.mostRestrictingLast)
      else some ctx

/-- The search of `add_data` (iprbexplicit.c:174-191). -/
def findHole (ctx : RbExplicitReassctx) (dataFirst dataLast : ℕ) :
    ℕ → Option RbholeLoc → Option (Option RbholeLoc)
  | _, none => some none
  | 0, some _ => none
  | fuel + 1, some node =>
    if (ctx.rbhole node).last < dataFirst then
      findHole ctx dataFirst dataLast fuel (ctx.holeTree.heap node).right
    else if (ctx.rbhole node).first > dataLast then
      findHole ctx dataFirst dataLast fuel (ctx.holeTree.heap node).left
    else some (some node)

/-- The stores that make `new` the child of `node` on side `d` (iprbexplicit.c:222-226, 241-245). -/
def hangHole (t : RbTreeNocmp RbholeLoc) (d : Side) (node new : RbholeLoc) :
    RbTreeNocmp RbholeLoc :=
  let t := match d with
    | .left => t.setLeft node (some new)
    | .right => t.setRight node (some new)
  (((t.setIsBlack new false).setParent new (some node)).setLeft new none).setRight new none

/-- A new node behind `node` in order (iprbexplicit.c:217-256). -/
def insertBehind (fuel : ℕ) (t : RbTreeNocmp RbholeLoc) (node new : RbholeLoc) :
    Option (RbTreeNocmp RbholeLoc) :=
  match (t.heap node).right with
  | none => (hangHole t .right node new).insertRepair fuel new
  | some r => do
    let node ← t.descend .left fuel r
    (hangHole t .left node new).insertRepair fuel new

/-- The branch of `add_data` for a fragment inside a hole (iprbexplicit.c:205-257). -/
def splitHole (ctx : RbExplicitReassctx) (dataFirst dataLast : ℕ) (node new : RbholeLoc) :
    Option RbExplicitReassctx := do
  let ctx' := (ctx.setFirst new (dataLast + 1)).setLast new (ctx.rbhole node).last
  let ctx' := ctx'.setLast node (dataFirst + 65535)
  let t ← insertBehind ctx.bound ctx'.holeTree node new
  some { ctx' with holeTree := t }

/-- The last two branches of `add_data` (iprbexplicit.c:270-287). `back` is `goto back`, which is
only taken for IPv4. Returns the context, `*mod` and `*overlap`. -/
def trimHole (back : RbExplicitReassctx → Option (RbExplicitReassctx × Bool × Bool))
    (dataFirst dataLast : ℕ) (node : RbholeLoc) (ctx : RbExplicitReassctx) (mod : Bool) :
    Option (RbExplicitReassctx × Bool × Bool) :=
  if (ctx.rbhole node).last ≤ dataLast ∧ (ctx.rbhole node).last + 1 > dataFirst then
    let ctx := ctx.setLast node (dataFirst + 65535)
    if !ctx.ipv6 then back ctx
    else if (ctx.rbhole node).first ≥ dataFirst ∧ (ctx.rbhole node).first < dataLast + 1 then
      some (ctx.setFirst node (dataLast + 1), true, false)
    else some (ctx, true, false)
  else if (ctx.rbhole node).first ≥ dataFirst ∧ (ctx.rbhole node).first < dataLast + 1 then
    let ctx := ctx.setFirst node (dataLast + 1)
    if !ctx.ipv6 then back ctx else some (ctx, true, false)
  else some (ctx, mod, false)

/-- `add_data` (iprbexplicit.c:164-288) with `new_hole` at `new`. Returns the context, `*mod` and
`*overlap`. -/
def addData (dataFirst dataLast : ℕ) (new : RbholeLoc) :
    ℕ → RbExplicitReassctx → Bool → Option (RbExplicitReassctx × Bool × Bool)
  | 0, _, _ => none
  | fuel + 1, ctx, mod => do
    match ← findHole ctx dataFirst dataLast ctx.bound ctx.holeTree.root with
    | none => some (ctx, mod, ctx.ipv6)
    | some node =>
      let hole := ctx.rbhole node
      if ctx.ipv6 ∧ (hole.first > dataFirst ∨ hole.last < dataLast) then some (ctx, mod, true)
      else if hole.last > dataLast ∧ hole.first < dataFirst then
        let ctx ← splitHole ctx dataFirst dataLast node new
        some (ctx, true, false)
      else if hole.last ≤ dataLast ∧ hole.first ≥ dataFirst then
        let t ← ctx.holeTree.delete ctx.bound node
        let ctx := { ctx with holeTree := t }
        if !ctx.ipv6 then addData dataFirst dataLast new fuel ctx true
        else trimHole (addData dataFirst dataLast new fuel · true) dataFirst dataLast node ctx true
      else trimHole (addData dataFirst dataLast new fuel · true) dataFirst dataLast node ctx mod

/-- `rb_explicit_reassctx_add` (iprbexplicit.c:290-352) for the packet with number `k`. Returns the
context and what was stored to `*overlapptr`, if anything. -/
def rbExplicitReassctxAdd (ctx : RbExplicitReassctx) (k : ℕ) (pkt : Packet) :
    Option (RbExplicitReassctx × Option Bool) :=
  match pkt.accept with
  | none => some ({ ctx with freed := ctx.freed ++ [k] }, none)
  | some f => do
    let mod := f.more = false ∧ ctx.mostRestrictingLast > f.last
    let ctx ← (if mod then repairMostRestricting ctx.bound { ctx with
      mostRestrictingLast := f.last }
      else some ctx)
    let (ctx, mod, overlap) ← addData f.first f.last (.ofPacket k) ctx.bound ctx mod
    if mod && !overlap then
      some ({ ctx with packetList := ctx.packetList ++ [(k, pkt)] }, some overlap)
    else some ({ ctx with freed := ctx.freed ++ [k] }, some overlap)

/-! ## The tree operations on the sequence of holes -/

/-- `t` is a red-black tree with the nodes `ids` in order. -/
def IsHoleTree (t : RbTreeNocmp RbholeLoc) (ids : List RbholeLoc) : Prop :=
  ∃ T : CTree RbholeLoc, Rep t T ∧ T.IsRb ∧ T.toList = ids

section HoleTree

variable {t : RbTreeNocmp RbholeLoc} {ids : List RbholeLoc} {n : RbholeLoc} {fuel : ℕ}

theorem card_keys_eq_length (T : CTree RbholeLoc) : T.keys.card = T.toList.length := by
  rw [← CTree.coe_toList, Multiset.coe_card]

theorem IsHoleTree.nodup (h : IsHoleTree t ids) : ids.Nodup := by
  obtain ⟨T, hT, _, rfl⟩ := h
  exact CTree.nodup_toList.mpr hT.nodup

theorem IsHoleTree.root_eq_none (h : IsHoleTree t ids) : t.root = none ↔ ids = [] := by
  obtain ⟨T, hT, _, rfl⟩ := h
  rw [hT.root, CTree.root?_eq_none]
  cases T <;> simp [CTree.toList]

/-- The rightmost node is the last hole. -/
theorem IsHoleTree.rightmost (h : IsHoleTree t ids) (hfuel : ids.length ≤ fuel) :
    t.rightmost fuel = some ids.getLast? := by
  obtain ⟨T, hT, _, rfl⟩ := h
  exact hT.rightmost (by rwa [card_keys_eq_length])

/-- Deletion removes the hole from the list. -/
theorem IsHoleTree.delete (h : IsHoleTree t ids) (hn : n ∈ ids) (hfuel : ids.length ≤ fuel) :
    ∃ t', t.delete fuel n = some t' ∧ IsHoleTree t' (ids.erase n) := by
  obtain ⟨T, hT, hrb, rfl⟩ := h
  obtain ⟨t', T', ht', hT', hrb', hlist⟩ :=
    hT.delete hrb (CTree.mem_toList.mp hn) (show _ ≤ fuel by rwa [card_keys_eq_length])
  exact ⟨t', ht', T', hT', hrb', hlist⟩

theorem rep_hangHole {f : Frame RbholeLoc} {up : TPath RbholeLoc} {new : RbholeLoc}
    (h : Rep t (fill (f :: up) .leaf)) (hnew : new ∉ (fill (f :: up) .leaf).keys) :
    Rep (hangHole t f.side f.key new) (fill (f :: up) (.node false .leaf new .leaf)) := by
  have hne : new ≠ f.key := fun he => hnew (by simp [keys, he])
  have hheap : (hangHole t f.side f.key new).heap = attach t.heap f.key f.side new := by
    funext k
    cases hs : f.side <;> ext1 <;> simp [hangHole, attach, PNode.setChild] <;> grind
  refine ⟨?_, ?_, ?_⟩
  · have hroot : (hangHole t f.side f.key new).root = t.root := by
      cases hs : f.side <;> simp [hangHole]
    rw [hroot, h.root]
    exact root?_fill_congr up (by simp)
  · rw [hheap]
    exact shape_attach h.shape h.nodup hnew
  · have hnd := h.nodup
    simp only [keys_fill, CTree.keys, add_zero] at hnd hnew ⊢
    rw [Multiset.add_cons, add_zero, Multiset.nodup_cons]
    exact ⟨hnew, hnd⟩

theorem IsHoleTree.insertBehind {new : RbholeLoc} (h : IsHoleTree t ids) (hn : n ∈ ids)
    (hnew : new ∉ ids) (hfuel : ids.length < fuel) :
    ∃ t' pre post, insertBehind fuel t n new = some t' ∧ ids = pre ++ n :: post ∧
      IsHoleTree t' (pre ++ n :: new :: post) := by
  obtain ⟨T, hT, hrb, rfl⟩ := h
  obtain ⟨C, b, l, r, rfl⟩ := exists_fill_of_mem (CTree.mem_toList.mp hn)
  have hheap : t.heap n = ⟨b, l.root?, r.root?, C.parent?⟩ := Rep.heap_eq (d := .left) hT
  rw [CTree.mem_toList] at hnew
  rw [← card_keys_eq_length] at hfuel
  cases hr : r.root? with
  | none =>
    obtain rfl := CTree.root?_eq_none.mp hr
    have hT' : Rep t (fill (⟨.right, b, n, l⟩ :: C) .leaf) := hT
    obtain ⟨t', T', ht', hrep', hrb', hlist⟩ := (rep_hangHole hT' hnew).insertRepair_isRb hrb
      (lt_of_le_of_lt (by simp [CTree.keys, keys]; omega) hfuel)
    refine ⟨t', C.before ++ l.toList, C.after, ?_, ?_, T', hrep', hrb', ?_⟩
    · simpa [Ipfrag.insertBehind, hheap, CTree.root?] using ht'
    · simp [CTree.toList]
    · rw [hlist]
      simp [before, after, Side.pick]
  | some m =>
    -- the new node goes below the first node of the right subtree
    obtain ⟨P, c, x, rest, rfl, hside, hx⟩ : ∃ (P : TPath RbholeLoc) (c : Bool) (x : RbholeLoc)
        (rest : CTree RbholeLoc), r = P.fill (.mk .left c x .leaf rest) ∧
          (∀ f ∈ P, f.side = .left) ∧ t.descend .left fuel m = some x := by
      have hs := hT.shape
      rw [shape_fill] at hs
      rw [keys_fill, CTree.keys, Multiset.card_add, Multiset.card_cons, Multiset.card_add] at hfuel
      exact Rep.descend hs.2.2.2 hr (by omega)
    have hpath : C.fill (.node b l n (P.fill (.mk .left c x .leaf rest))) =
        fill (⟨.left, c, x, rest⟩ :: (P ++ ⟨.right, b, n, l⟩ :: C)) .leaf := by
      rw [fill_cons, fill_append]
      rfl
    have hlist : (C.fill (.node b l n (P.fill (.mk .left c x .leaf rest)))).toList =
        C.before ++ l.toList ++ n :: (x :: rest.toList ++ P.after ++ C.after) := by
      simp [CTree.toList, CTree.toList_mk_left, before_eq_nil hside]
    rw [hlist]
    rw [hpath] at hT hrb hnew hfuel
    obtain ⟨t', T', ht', hrep', hrb', hlist'⟩ := (rep_hangHole hT hnew).insertRepair_isRb hrb
      (lt_of_le_of_lt (by simp [CTree.keys]) hfuel)
    refine ⟨t', C.before ++ l.toList, _, ?_, rfl, T', hrep', hrb', ?_⟩
    · simpa [Ipfrag.insertBehind, hheap, hr, hx] using ht'
    · rw [hlist', before, after, before_append, after_append,
        before_eq_nil hside]
      simp [before, after, Side.pick]

end HoleTree

/-! ## The search -/

/-- The hole `n` and the bytes `a … b` have a byte in common. -/
def Meets (rbhole : RbholeLoc → Hole) (a b : ℕ) (n : RbholeLoc) : Prop :=
  a ≤ (rbhole n).last ∧ (rbhole n).first ≤ b

instance (rbhole : RbholeLoc → Hole) (a b : ℕ) (n : RbholeLoc) :
    Decidable (Meets rbhole a b n) := inferInstanceAs (Decidable (_ ∧ _))

variable {a b fuel : ℕ}

/-- The search finds a hole that meets the fragment, if there is one. -/
theorem findHole_shape {ctx : RbExplicitReassctx} {par : Option RbholeLoc} {T : CTree RbholeLoc}
    (hs : Shape ctx.holeTree.heap par T) (ha : Ascending (T.toList.map ctx.rbhole))
    (hfuel : T.keys.card ≤ fuel) :
    ∃ o, findHole ctx a b fuel T.root? = some o ∧
      (∀ n, o = some n → n ∈ T.toList ∧ Meets ctx.rbhole a b n) ∧
      (o = none → ∀ n ∈ T.toList, ¬Meets ctx.rbhole a b n) := by
  induction T generalizing par fuel with
  | leaf => exact ⟨none, by cases fuel <;> rfl, by simp, by simp [CTree.toList]⟩
  | node c l k r ihl ihr =>
    obtain ⟨hk, hl, hr⟩ := hs
    rw [CTree.keys, Multiset.card_cons, Multiset.card_add] at hfuel
    obtain ⟨fuel, rfl⟩ : ∃ m, fuel = m + 1 := ⟨fuel - 1, by omega⟩
    rw [CTree.toList, List.map_append, List.map_cons, ascending_append, ascending_cons] at ha
    obtain ⟨hal, ⟨hkk, hkr, har⟩, hlt⟩ := ha
    have hlk : ∀ n ∈ l.toList, (ctx.rbhole n).last < (ctx.rbhole k).first := fun n hn =>
      hlt _ (List.mem_map_of_mem hn) _ (by simp)
    have hkr' : ∀ n ∈ r.toList, (ctx.rbhole k).last < (ctx.rbhole n).first := fun n hn =>
      hkr _ (List.mem_map_of_mem hn)
    rw [CTree.root?, findHole, hk]
    simp only [CTree.toList, List.mem_append, List.mem_cons]
    split_ifs with h1 h2
    · -- everything up to `k` ends before the fragment
      obtain ⟨o, ho, hsome, hnone⟩ := ihr hr har (show _ ≤ fuel by omega)
      refine ⟨o, ho, fun n hn => ⟨.inr (.inr (hsome n hn).1), (hsome n hn).2⟩, fun hn n hm => ?_⟩
      rcases hm with hm | rfl | hm
      · have := hlk n hm
        simp only [Meets]
        omega
      · simp only [Meets]
        omega
      · exact hnone hn n hm
    · -- everything from `k` on starts behind the fragment
      obtain ⟨o, ho, hsome, hnone⟩ := ihl hl hal (show _ ≤ fuel by omega)
      refine ⟨o, ho, fun n hn => ⟨.inl (hsome n hn).1, (hsome n hn).2⟩, fun hn n hm => ?_⟩
      rcases hm with hm | rfl | hm
      · exact hnone hn n hm
      · simp only [Meets]
        omega
      · have := hkr' n hm
        simp only [Meets]
        omega
    · exact ⟨some k, rfl, by simp [Meets]; omega, by simp⟩

/-- The search finds a hole that meets the fragment, if there is one. -/
theorem findHole_spec {ctx : RbExplicitReassctx} {ids : List RbholeLoc}
    (h : IsHoleTree ctx.holeTree ids) (ha : Ascending (ids.map ctx.rbhole))
    (hfuel : ids.length ≤ fuel) :
    ∃ o, findHole ctx a b fuel ctx.holeTree.root = some o ∧
      (∀ n, o = some n → n ∈ ids ∧ Meets ctx.rbhole a b n) ∧
      (o = none → ∀ n ∈ ids, ¬Meets ctx.rbhole a b n) := by
  obtain ⟨T, hT, _, rfl⟩ := h
  rw [hT.root]
  exact findHole_shape hT.shape ha (by rwa [card_keys_eq_length])

/-! ## Changing holes in place -/

section Update

variable {rbhole : RbholeLoc → Hole} {n : RbholeLoc} {pre post : List RbholeLoc}

theorem map_update_of_notMem {ids : List RbholeLoc} (hn : n ∉ ids) (g : Hole) :
    ids.map (update rbhole n g) = ids.map rbhole :=
  List.map_congr_left fun _ hx => update_of_ne (ne_of_mem_of_not_mem hx hn) g rbhole

theorem map_update (hnd : (pre ++ n :: post).Nodup) (g : Hole) :
    (pre ++ n :: post).map (update rbhole n g) = pre.map rbhole ++ g :: post.map rbhole := by
  obtain ⟨_, hpost, hdis⟩ := List.nodup_append.mp hnd
  rw [List.map_append, List.map_cons, update_self,
    map_update_of_notMem fun hm => hdis n hm n (by simp) rfl,
    map_update_of_notMem (List.nodup_cons.mp hpost).1]

end Update

/-- The holes of the context, in order, are the nonempty gaps with the points `P`. -/
structure HoleSet (ctx : RbExplicitReassctx) (ids : List RbholeLoc) (P : ℕ → Prop) : Prop where
  tree : IsHoleTree ctx.holeTree ids
  ascending : Ascending (ids.map ctx.rbhole)
  points : ∀ i, InGaps (ids.map ctx.rbhole) i ↔ P i
  lt : ∀ i, P i → i < 65536

namespace HoleSet

variable {ctx : RbExplicitReassctx} {ids pre post : List RbholeLoc} {P Q : ℕ → Prop}
  {n : RbholeLoc}

theorem nodup (h : HoleSet ctx ids P) : ids.Nodup := h.tree.nodup

theorem first_le_last (h : HoleSet ctx ids P) (hn : n ∈ ids) :
    (ctx.rbhole n).first ≤ (ctx.rbhole n).last :=
  h.ascending.1 _ (List.mem_map_of_mem hn)

theorem last_lt (h : HoleSet ctx ids P) (hn : n ∈ ids) : (ctx.rbhole n).last < 65536 :=
  h.lt _ ((h.points _).mp ⟨_, List.mem_map_of_mem hn, h.first_le_last hn, le_rfl⟩)

theorem congr (h : HoleSet ctx ids P) (hPQ : ∀ i, P i ↔ Q i) : HoleSet ctx ids Q :=
  ⟨h.tree, h.ascending, fun i => (h.points i).trans (hPQ i), fun i hi => h.lt i ((hPQ i).mpr hi)⟩

theorem points_split (h : HoleSet ctx (pre ++ n :: post) P) (i : ℕ) :
    P i ↔ InGaps (pre.map ctx.rbhole) i ∨ (ctx.rbhole n).Has i ∨
      InGaps (post.map ctx.rbhole) i := by
  rw [← h.points, List.map_append, List.map_cons, inGaps_append, inGaps_cons]

theorem not_has_of_other (h : HoleSet ctx (pre ++ n :: post) P) {i : ℕ}
    (hi : InGaps (pre.map ctx.rbhole) i ∨ InGaps (post.map ctx.rbhole) i) :
    ¬(ctx.rbhole n).Has i := by
  have ha := h.ascending
  rw [List.map_append, List.map_cons, ascending_append, ascending_cons] at ha
  obtain ⟨_, ⟨_, hpost, _⟩, hpre⟩ := ha
  rintro ⟨h1, h2⟩
  rcases hi with ⟨g, hg, h3, h4⟩ | ⟨g, hg, h3, h4⟩
  · have := hpre g hg (ctx.rbhole n) (by simp)
    omega
  · have := hpost g hg
    omega

theorem delete (h : HoleSet ctx ids P) (hn : n ∈ ids) {fuel : ℕ} (hfuel : ids.length ≤ fuel) :
    ∃ t', ctx.holeTree.delete fuel n = some t' ∧
      HoleSet { ctx with holeTree := t' } (ids.erase n) fun i => P i ∧ ¬(ctx.rbhole n).Has i := by
  obtain ⟨t', ht', htree⟩ := h.tree.delete hn hfuel
  refine ⟨t', ht', htree, h.ascending.sublist (ids.erase_sublist.map _), fun i => ?_, fun i hi =>
    h.lt i hi.1⟩
  obtain ⟨pre, post, rfl⟩ := List.append_of_mem hn
  have herase : (pre ++ n :: post).erase n = pre ++ post := by
    have hdis := List.disjoint_of_nodup_append h.nodup
    rw [List.erase_append_right _ fun hm => hdis hm (by simp), List.erase_cons_head]
  have hother := h.not_has_of_other (i := i)
  rw [herase, List.map_append, inGaps_append, h.points_split]
  tauto

/-- A hole is made smaller in place. -/
theorem shrink (h : HoleSet ctx ids P) (hn : n ∈ ids) {g : Hole} (hg : g.first ≤ g.last)
    (h1 : (ctx.rbhole n).first ≤ g.first) (h2 : g.last ≤ (ctx.rbhole n).last) :
    HoleSet { ctx with rbhole := update ctx.rbhole n g } ids fun i =>
      P i ∧ ((ctx.rbhole n).Has i → g.Has i) := by
  obtain ⟨pre, post, rfl⟩ := List.append_of_mem hn
  have ha := h.ascending
  rw [List.map_append, List.map_cons] at ha
  refine ⟨h.tree, ?_, fun i => ?_, fun i hi => h.lt i hi.1⟩
  · rw [map_update h.nodup]
    exact ha.replace (show Ascending [g] by simpa using hg) (by simpa using ⟨h1, h2⟩)
  · have hother := h.not_has_of_other (i := i)
    have hsub : g.Has i → (ctx.rbhole n).Has i := fun hi => ⟨h1.trans hi.1, hi.2.trans h2⟩
    rw [map_update h.nodup, inGaps_append, inGaps_cons, h.points_split]
    tauto

theorem le_of_points (h : HoleSet ctx (pre ++ [n]) P) {i : ℕ} (hi : P i) :
    (ctx.rbhole n).Has i ∨ i < (ctx.rbhole n).first := by
  rw [h.points_split] at hi
  rcases hi with ⟨g, hg, _, h2⟩ | hi | hi
  · have ha := h.ascending
    rw [List.map_append, ascending_append] at ha
    have := ha.2.2 g hg (ctx.rbhole n) (by simp)
    exact .inr (by omega)
  · exact .inl hi
  · simp at hi

end HoleSet

/-- The byte behind a hole is not one of the points `P`, so no two holes touch. -/
def Apart (rbhole : RbholeLoc → Hole) (ids : List RbholeLoc) (P : ℕ → Prop) : Prop :=
  ∀ n ∈ ids, ¬P ((rbhole n).last + 1)

variable {rbhole : RbholeLoc → Hole} {P : ℕ → Prop} {n new : RbholeLoc} {pkts : List Packet}

theorem Apart.mono {ids ids' : List RbholeLoc} {Q : ℕ → Prop} (h : Apart rbhole ids P)
    (hids : ids' ⊆ ids) (hQ : ∀ i, Q i → P i) : Apart rbhole ids' Q :=
  fun n hn hq => h n (hids hn) (hQ _ hq)

theorem Apart.update {ids : List RbholeLoc} {g : Hole} (h : Apart rbhole ids P)
    (hg : ¬P (g.last + 1)) : Apart (update rbhole n g) ids P := by
  intro m hm
  by_cases hmn : m = n
  · rw [hmn, update_self]
    exact hg
  · rw [update_of_ne hmn]
    exact h m hm

/-- What the loop does to the set of missing bytes: those behind the new end are taken away. -/
theorem repairMostRestricting_spec {ctx : RbExplicitReassctx} {ids : List RbholeLoc}
    (h : HoleSet ctx ids P) (hb : ids.length ≤ ctx.bound) (hfuel : ids.length < fuel)
    (hlast : ctx.mostRestrictingLast < 65536) :
    ∃ t' r' ids', repairMostRestricting fuel ctx =
        some { ctx with holeTree := t', rbhole := r' } ∧
      HoleSet { ctx with holeTree := t', rbhole := r' } ids'
        (fun i => P i ∧ i ≤ ctx.mostRestrictingLast) ∧ ids' ⊆ ids ∧
      (Apart ctx.rbhole ids P → Apart r' ids' fun i => P i ∧ i ≤ ctx.mostRestrictingLast) := by
  induction fuel generalizing ctx ids P with
  | zero => omega
  | succ fuel ih =>
    have hright := h.tree.rightmost hb
    rcases List.eq_nil_or_concat ids with rfl | ⟨pre, n, rfl⟩
    · refine ⟨_, _, [], ?_, h.congr fun i => ?_, by simp, fun _ => by simp [Apart]⟩
      · simp [repairMostRestricting, hright]
      · have := h.points i
        simp only [List.map_nil, inGaps_nil, false_iff] at this
        simp [this]
    rw [List.concat_eq_append] at h hright hb hfuel ⊢
    have hn : n ∈ pre ++ [n] := by simp
    rw [List.getLast?_concat] at hright
    by_cases h1 : (ctx.rbhole n).first > ctx.mostRestrictingLast
    · obtain ⟨t1, ht1, h1'⟩ := h.delete hn hb
      have hlen : ((pre ++ [n]).erase n).length = pre.length := by
        rw [List.length_erase_of_mem hn]; simp
      rw [List.length_append, List.length_singleton] at hb hfuel
      obtain ⟨t', r', ids', he, hset, hsub, hapart⟩ := ih h1'
        (by rw [hlen]; exact le_trans (Nat.le_succ _) hb) (by rw [hlen]; omega) hlast
      have hpoints : ∀ i, (P i ∧ ¬(ctx.rbhole n).Has i) ∧ i ≤ ctx.mostRestrictingLast ↔
          P i ∧ i ≤ ctx.mostRestrictingLast := by
        intro i
        refine and_congr_left fun hi => and_iff_left fun hhas => ?_
        have := hhas.1
        omega
      refine ⟨t', r', ids', ?_, hset.congr hpoints,
        fun x hx => List.mem_of_mem_erase (hsub hx), fun ha => ?_⟩
      · simp [repairMostRestricting, hright, h1, ht1, he]
      · have ha' := hapart (ha.mono List.erase_subset fun _ hi => hi.1)
        exact ha'.mono (List.Subset.refl _) fun i hi => (hpoints i).mpr hi
    · by_cases h2 : (ctx.rbhole n).last > ctx.mostRestrictingLast
      · have hs := h.shrink hn (g := ⟨(ctx.rbhole n).first, ctx.mostRestrictingLast⟩)
          (not_lt.mp h1) le_rfl h2.le
        refine ⟨_, _, _, ?_, hs.congr fun i => and_congr_right fun hP => ?_, List.Subset.refl _,
          fun ha => (ha.mono (List.Subset.refl _) fun _ hi => hi.1).update fun hi => ?_⟩
        · simp [repairMostRestricting, hright, h1, h2, RbExplicitReassctx.setLast,
            Nat.mod_eq_of_lt hlast]
        · have := h.le_of_points hP
          simp only [Gap.Has] at this ⊢
          omega
        · exact absurd hi.2 (Nat.not_succ_le_self _)
      · refine ⟨_, _, _, ?_, h.congr fun i => (and_iff_left_of_imp fun hP => ?_).symm,
          List.Subset.refl _, fun ha => ha.mono (List.Subset.refl _) fun _ hi => hi.1⟩
        · simp [repairMostRestricting, hright, h1, h2]
        · have := h.le_of_points hP
          simp only [Gap.Has] at this
          omega

/-- A fragment inside of a hole splits it. -/
theorem splitHole_spec {ctx : RbExplicitReassctx} {ids : List RbholeLoc} (h : HoleSet ctx ids P)
    (hn : n ∈ ids) (hnew : new ∉ ids) (hab : a ≤ b) (h1 : (ctx.rbhole n).first < a)
    (h2 : b < (ctx.rbhole n).last) (hb : ids.length < ctx.bound) :
    ∃ t' r' ids', splitHole ctx a b n new = some { ctx with holeTree := t', rbhole := r' } ∧
      HoleSet { ctx with holeTree := t', rbhole := r' } ids' (fun i => P i ∧ ¬(a ≤ i ∧ i ≤ b)) ∧
      ids' ⊆ new :: ids ∧
      (Apart ctx.rbhole ids P → Apart r' ids' fun i => P i ∧ ¬(a ≤ i ∧ i ≤ b)) := by
  obtain ⟨t', pre, post, ht', rfl, htree⟩ := h.tree.insertBehind hn hnew hb
  have hlt := h.last_lt hn
  have hne : new ≠ n := fun he => hnew (he ▸ hn)
  have hlast : (a + 65535) % 65536 = a - 1 := by omega
  have hfirst : (b + 1) % 65536 = b + 1 := by omega
  have hmap : (pre ++ n :: new :: post).map (update (update ctx.rbhole new
      ⟨b + 1, (ctx.rbhole n).last⟩) n ⟨(ctx.rbhole n).first, a - 1⟩) =
      pre.map ctx.rbhole ++ ([⟨(ctx.rbhole n).first, a - 1⟩, ⟨b + 1, (ctx.rbhole n).last⟩] ++
        post.map ctx.rbhole) := by
    rw [map_update htree.nodup, List.map_cons, update_self,
      map_update_of_notMem fun hm => hnew (by simp [hm]),
      map_update_of_notMem fun hm => hnew (by simp [hm])]
    rfl
  refine ⟨t', update (update ctx.rbhole new ⟨b + 1, (ctx.rbhole n).last⟩) n
    ⟨(ctx.rbhole n).first, a - 1⟩, pre ++ n :: new :: post, ?_,
    ⟨htree, ?_, fun i => ?_, fun i hi => h.lt i hi.1⟩, ?_, fun ha => ?_⟩
  · simp only [splitHole, RbExplicitReassctx.setLast, RbExplicitReassctx.setFirst, ht',
      Option.bind_eq_bind, Option.bind_some, update_self, update_idem,
      update_of_ne hne.symm, hlast, hfirst, Nat.mod_eq_of_lt hlt]
  · have ha := h.ascending
    rw [List.map_append, List.map_cons] at ha
    rw [hmap]
    refine ha.replace ((ascending_cons _ _).mpr ⟨?_, ?_, ?_⟩) ?_
    · simp only; omega
    · simp only [List.mem_singleton, forall_eq]; omega
    · rw [ascending_singleton]; exact h2
    · simp only [List.mem_cons, List.not_mem_nil, or_false, forall_eq_or_imp, forall_eq]; omega
  · have hother := h.not_has_of_other (i := i)
    rw [hmap, inGaps_append, inGaps_append, inGaps_cons, inGaps_cons, h.points_split]
    simp only [inGaps_nil, or_false, Gap.Has] at hother ⊢
    by_cases hA : InGaps (pre.map ctx.rbhole) i
    · have := hother (.inl hA)
      simp only [hA, true_or, true_and, true_iff]
      omega
    by_cases hB : InGaps (post.map ctx.rbhole) i
    · have := hother (.inr hB)
      simp only [hB, or_true, true_and, true_iff]
      omega
    simp only [hA, hB, false_or, or_false]
    omega
  · intro x hx
    simp only [List.mem_append, List.mem_cons] at hx ⊢
    rcases hx with hx | hx | hx | hx <;> simp [hx]
  · -- the byte behind the left part is the first one of the fragment
    refine Apart.update (fun m hm hi => ?_) fun hi => hi.2 (by simp only; omega)
    by_cases hmn : m = new
    · rw [hmn, update_self] at hi
      exact ha n hn hi.1
    · rw [update_of_ne hmn] at hi
      refine ha m ?_ hi.1
      simp only [List.mem_append, List.mem_cons, hmn, false_or] at hm ⊢
      exact hm

/-- The number of holes that meet the fragment. -/
def meetCount (ctx : RbExplicitReassctx) (ids : List RbholeLoc) (a b : ℕ) : ℕ :=
  ids.countP fun n => Meets ctx.rbhole a b n

theorem meetCount_le (ctx : RbExplicitReassctx) (ids : List RbholeLoc) (a b : ℕ) :
    meetCount ctx ids a b ≤ ids.length := List.countP_le_length

/-- A deleted hole decreases the measure of the loop. -/
theorem meetCount_erase_lt {ctx : RbExplicitReassctx} {ids : List RbholeLoc} (hn : n ∈ ids)
    (hm : Meets ctx.rbhole a b n) (t : RbTreeNocmp RbholeLoc) :
    meetCount { ctx with holeTree := t } (ids.erase n) a b < meetCount ctx ids a b := by
  have hpos : 0 < meetCount ctx ids a b := List.countP_pos_iff.mpr ⟨n, hn, by simpa using hm⟩
  simp only [meetCount] at hpos ⊢
  rw [List.countP_erase, if_pos ⟨hn, by simpa using hm⟩]
  omega

/-- So does a hole that is cut down. -/
theorem meetCount_update_lt {ctx : RbExplicitReassctx} {ids : List RbholeLoc} {g : Hole}
    (hnd : ids.Nodup) (hn : n ∈ ids) (hm : Meets ctx.rbhole a b n)
    (hg : ¬(a ≤ g.last ∧ g.first ≤ b)) :
    meetCount { ctx with rbhole := update ctx.rbhole n g } ids a b < meetCount ctx ids a b := by
  obtain ⟨pre, post, rfl⟩ := List.append_of_mem hn
  have hdis := List.disjoint_of_nodup_append hnd
  have hpost := (List.nodup_cons.mp (List.nodup_append.mp hnd).2.1).1
  have hsame : ∀ l : List RbholeLoc, n ∉ l →
      (l.countP fun x => Meets (update ctx.rbhole n g) a b x) =
        l.countP fun x => Meets ctx.rbhole a b x := by
    intro l hl
    refine List.countP_congr fun x hx => ?_
    have hiff : Meets (update ctx.rbhole n g) a b x ↔ Meets ctx.rbhole a b x := by
      rw [Meets, update_of_ne (ne_of_mem_of_not_mem hx hl), Meets]
    rw [decide_eq_true_iff, decide_eq_true_iff, hiff]
  simp only [meetCount, List.countP_append, List.countP_cons]
  rw [hsame pre fun hx => hdis hx (by simp), hsame post hpost, if_neg, if_pos]
  · omega
  · simpa using hm
  · simpa [Meets] using hg

theorem addData_succ {ctx : RbExplicitReassctx} {mod : Bool} (hv4 : ctx.ipv6 = false)
    (ho : findHole ctx a b ctx.bound ctx.holeTree.root = some (some n)) :
    addData a b new (fuel + 1) ctx mod =
      if (ctx.rbhole n).last > b ∧ (ctx.rbhole n).first < a then
        (splitHole ctx a b n new).map (·, true, false)
      else if (ctx.rbhole n).last ≤ b ∧ (ctx.rbhole n).first ≥ a then
        (ctx.holeTree.delete ctx.bound n).bind fun t =>
          addData a b new fuel { ctx with holeTree := t } true
      else if (ctx.rbhole n).last ≤ b ∧ (ctx.rbhole n).last + 1 > a then
        addData a b new fuel (ctx.setLast n (a + 65535)) true
      else if (ctx.rbhole n).first ≥ a ∧ (ctx.rbhole n).first < b + 1 then
        addData a b new fuel (ctx.setFirst n (b + 1)) true
      else some (ctx, mod, false) := by
  have h1 : ∀ v, (ctx.setLast n v).ipv6 = false := fun _ => hv4
  have h2 : ∀ v, (ctx.setFirst n v).ipv6 = false := fun _ => hv4
  simp only [addData, ho, Option.bind_eq_bind, Option.bind_some, hv4, Bool.false_eq_true,
    false_and, if_false, Bool.not_false, if_true, trimHole, h1, h2]
  split_ifs
  · cases splitHole ctx a b n new <;> rfl
  all_goals rfl

/-- `add_data` for IPv4 removes the bytes of the fragment. When it reports no change there was none
to remove. -/
theorem addData_spec {ctx : RbExplicitReassctx} {ids : List RbholeLoc} (mod : Bool)
    (hv4 : ctx.ipv6 = false) (h : HoleSet ctx ids P) (hnew : new ∉ ids) (hab : a ≤ b)
    (hb : ids.length < ctx.bound) (hfuel : meetCount ctx ids a b < fuel) :
    ∃ t' r' mod' ids', addData a b new fuel ctx mod =
        some ({ ctx with holeTree := t', rbhole := r' }, mod', false) ∧
      HoleSet { ctx with holeTree := t', rbhole := r' } ids' (fun i => P i ∧ ¬(a ≤ i ∧ i ≤ b)) ∧
      ids' ⊆ new :: ids ∧
      (mod' = false → mod = false ∧ ids' = ids ∧ ∀ i, P i → ¬(a ≤ i ∧ i ≤ b)) := by
  induction fuel generalizing ctx ids P mod with
  | zero => omega
  | succ fuel ih =>
    obtain ⟨o, ho, hsome, hnone⟩ := findHole_spec (a := a) (b := b) h.tree h.ascending hb.le
    cases o with
    | none =>
      have hno : ∀ i, P i → ¬(a ≤ i ∧ i ≤ b) := by
        intro i hi hi'
        obtain ⟨g, hg, h1, h2⟩ := (h.points i).mpr hi
        obtain ⟨n, hn, rfl⟩ := List.mem_map.mp hg
        exact hnone rfl n hn ⟨hi'.1.trans h2, h1.trans hi'.2⟩
      refine ⟨_, _, mod, ids, ?_, h.congr fun i => ⟨fun hi => ⟨hi, hno i hi⟩, And.left⟩,
        List.subset_cons_self _ _, fun hm => ⟨hm, rfl, hno⟩⟩
      simp only [addData, ho, Option.bind_eq_bind, Option.bind_some]
      exact congrArg (fun x => some (ctx, mod, x)) hv4
    | some n =>
      obtain ⟨hn, h1, h2⟩ := hsome n rfl
      have hlt := h.last_lt hn
      have hle := h.first_le_last hn
      -- after a change that leaves fewer holes to treat, the loop starts again
      have hback : ∀ t1 r1 ids1 P1, HoleSet { ctx with holeTree := t1, rbhole := r1 } ids1 P1 →
          ids1 ⊆ ids → ids1.length ≤ ids.length →
          meetCount { ctx with holeTree := t1, rbhole := r1 } ids1 a b < meetCount ctx ids a b →
          (∀ i, P1 i ∧ ¬(a ≤ i ∧ i ≤ b) ↔ P i ∧ ¬(a ≤ i ∧ i ≤ b)) →
          ∃ t' r' mod' ids',
            addData a b new fuel { ctx with holeTree := t1, rbhole := r1 } true =
              some ({ ctx with holeTree := t', rbhole := r' }, mod', false) ∧
            HoleSet { ctx with holeTree := t', rbhole := r' } ids'
              (fun i => P i ∧ ¬(a ≤ i ∧ i ≤ b)) ∧ ids' ⊆ new :: ids ∧
            (mod' = false → mod = false ∧ ids' = ids ∧ ∀ i, P i → ¬(a ≤ i ∧ i ≤ b)) := by
        intro t1 r1 ids1 P1 hset hsub hlen hcount hP
        obtain ⟨t', r', mod', ids', he, hset', hsub', hmod⟩ := ih true
          (show RbExplicitReassctx.ipv6 { ctx with holeTree := t1, rbhole := r1 } = false from hv4)
          hset (fun hm => hnew (hsub hm)) (lt_of_le_of_lt hlen hb) (by omega)
        refine ⟨t', r', mod', ids', he, hset'.congr hP, fun x hx => ?_, fun hm => ?_⟩
        · rcases List.mem_cons.mp (hsub' hx) with hx | hx
          · simp [hx]
          · exact List.mem_cons_of_mem _ (hsub hx)
        · exact absurd (hmod hm).1 (by simp)
      rw [addData_succ hv4 ho]
      split_ifs with hsplit hdel hl hf
      · obtain ⟨t', r', ids', he, hset, hsub, _⟩ :=
          splitHole_spec h hn hnew hab hsplit.2 hsplit.1 hb
        exact ⟨t', r', true, ids', by rw [he]; rfl, hset, hsub, by simp⟩
      · obtain ⟨t1, ht1, hset⟩ := h.delete hn hb.le
        rw [ht1, Option.bind_some]
        refine hback t1 ctx.rbhole _ _ hset List.erase_subset ids.length_erase_le
          (meetCount_erase_lt hn ⟨h1, h2⟩ t1) fun i => ?_
        have himp : ¬(a ≤ i ∧ i ≤ b) → ¬(ctx.rbhole n).Has i := by
          simp only [Gap.Has]
          omega
        exact and_congr_left fun hi => and_iff_left (himp hi)
      · have hset := h.shrink hn (g := ⟨(ctx.rbhole n).first, a - 1⟩) (by simp only; omega) le_rfl
          (by simp only; omega)
        have hctx : ctx.setLast n (a + 65535) = { ctx with
            rbhole := update ctx.rbhole n ⟨(ctx.rbhole n).first, a - 1⟩ } := by
          rw [RbExplicitReassctx.setLast, show (a + 65535) % 65536 = a - 1 by omega]
        rw [hctx]
        refine hback ctx.holeTree _ _ _ hset (List.Subset.refl _) le_rfl
          (meetCount_update_lt h.nodup hn ⟨h1, h2⟩ (by simp only; omega)) fun i => ?_
        refine and_congr_left fun hi => and_iff_left fun hhas => ?_
        simp only [Gap.Has] at hhas ⊢
        omega
      · have hset := h.shrink hn (g := ⟨b + 1, (ctx.rbhole n).last⟩) (by simp only; omega)
          (by simp only; omega) le_rfl
        have hctx : ctx.setFirst n (b + 1) = { ctx with
            rbhole := update ctx.rbhole n ⟨b + 1, (ctx.rbhole n).last⟩ } := by
          rw [RbExplicitReassctx.setFirst, show (b + 1) % 65536 = b + 1 by omega]
        rw [hctx]
        refine hback ctx.holeTree _ _ _ hset (List.Subset.refl _) le_rfl
          (meetCount_update_lt h.nodup hn ⟨h1, h2⟩ (by simp only; omega)) fun i => ?_
        refine and_congr_left fun hi => and_iff_left fun hhas => ?_
        simp only [Gap.Has] at hhas ⊢
        omega
      · omega

/-! ## Whole runs -/

/-- The state of the engine in IPv4 mode after the packets `pkts`. -/
structure RbExplicitInv (pkts : List Packet) (ctx : RbExplicitReassctx) : Prop where
  ipv4 : ctx.ipv6 = false
  last : ctx.mostRestrictingLast = mostRestrictingLast (pkts.filterMap Packet.accept)
  holes : ∃ ids, HoleSet ctx ids (Missing (pkts.filterMap Packet.accept)) ∧
    ∀ n ∈ ids, n = .firstHole ∨ ∃ e ∈ ctx.packetList, n = .ofPacket e.1
  kept : ∀ e ∈ ctx.packetList, pkts[e.1]? = some e.2
  once : (ctx.packetList.map Prod.fst ++ ctx.freed).Perm (List.range pkts.length)
  covered : ∀ i ≤ ctx.mostRestrictingLast, Covered (pkts.filterMap Packet.accept) i →
    Covered (ctx.packetList.filterMap fun e => e.2.accept) i

theorem rbExplicitReassctxInit_spec (heap : Heap RbholeLoc) (rbhole : RbholeLoc → Hole)
    (ipv6 : Bool) :
    ∃ t r, rbExplicitReassctxInit heap rbhole ipv6 = some ⟨[], t, r, 65535, ipv6, []⟩ ∧
      r .firstHole = ⟨0, 65535⟩ ∧
      HoleSet ⟨[], t, r, 65535, ipv6, []⟩ [.firstHole] fun i => i ≤ 65535 := by
  obtain ⟨t', ht', h'⟩ := Rep.insert_empty (t := ⟨none, heap⟩) (k := RbholeLoc.firstHole)
    (rbHoleTreeCmp (update rbhole .firstHole ⟨0, 65535⟩)) rfl Nat.one_pos
  refine ⟨_, _, by rw [rbExplicitReassctxInit, ht']; rfl, update_self .., ?_⟩
  refine ⟨⟨_, h', ⟨rfl, 1, 0, rfl, rfl, rfl⟩, rfl⟩, by simp, fun i => ?_, fun i hi => ?_⟩
  · simp [Gap.Has]
  · exact Nat.lt_succ_of_le hi

theorem rbExplicitReassctxInit_inv (heap : Heap RbholeLoc) (rbhole : RbholeLoc → Hole) :
    ∃ ctx, rbExplicitReassctxInit heap rbhole false = some ctx ∧ RbExplicitInv [] ctx := by
  obtain ⟨t, r, hinit, _, hset⟩ := rbExplicitReassctxInit_spec heap rbhole false
  refine ⟨_, hinit, rfl, rfl, ⟨[.firstHole], ?_, by simp⟩, by simp, by simp, by simp⟩
  refine hset.congr fun i => ?_
  simp [Missing, mostRestrictingLast, Covered]

theorem length_lt_bound {ctx : RbExplicitReassctx} {ids : List RbholeLoc} (hnd : ids.Nodup)
    (hsub : ∀ n ∈ ids, n = .firstHole ∨ ∃ e ∈ ctx.packetList, n = .ofPacket e.1) :
    ids.length < ctx.bound := by
  have hss : ids ⊆ .firstHole :: ctx.packetList.map fun e => .ofPacket e.1 := by
    intro n hn
    rcases hsub n hn with rfl | ⟨e, he, rfl⟩
    · simp
    · exact List.mem_cons_of_mem _ (List.mem_map_of_mem he)
  have := (List.subperm_of_subset hnd hss).length_le
  simp only [List.length_cons, List.length_map] at this
  simp only [RbExplicitReassctx.bound]
  omega

/-- A final fragment cuts off the holes after it. -/
theorem lowerLast_spec {ctx : RbExplicitReassctx} {ids : List RbholeLoc} {fs : List Frag} {f : Frag}
    (hlast : ctx.mostRestrictingLast = mostRestrictingLast fs) (h : HoleSet ctx ids P)
    (hP : ∀ i, P i → i ≤ mostRestrictingLast fs) (hb : ids.length < ctx.bound) :
    ∃ t' r' ids', (if f.more = false ∧ ctx.mostRestrictingLast > f.last then
          repairMostRestricting ctx.bound { ctx with mostRestrictingLast := f.last }
        else some ctx) = some { ctx with
          mostRestrictingLast := mostRestrictingLast (fs ++ [f]), holeTree := t', rbhole := r' } ∧
      HoleSet { ctx with
          mostRestrictingLast := mostRestrictingLast (fs ++ [f]), holeTree := t', rbhole :=
            r' } ids'
        (fun i => P i ∧ i ≤ mostRestrictingLast (fs ++ [f])) ∧ ids' ⊆ ids ∧
      (Apart ctx.rbhole ids P →
        Apart r' ids' fun i => P i ∧ i ≤ mostRestrictingLast (fs ++ [f])) := by
  rw [mostRestrictingLast_append_singleton, ← hlast]
  split_ifs with hf
  · have h' : HoleSet { ctx with mostRestrictingLast := f.last } ids P :=
      ⟨h.tree, h.ascending, h.points, h.lt⟩
    exact repairMostRestricting_spec h' hb.le hb f.lt
  · refine ⟨_, _, ids, rfl, h.congr fun i => (and_iff_left_of_imp fun hi => ?_).symm,
      List.Subset.refl _, fun ha => ha.mono (List.Subset.refl _) fun _ hi => hi.1⟩
    rw [hlast]
    exact hP i hi

/-- One packet keeps `RbExplicitInv`. -/
theorem rbExplicitReassctxAdd_inv {ctx : RbExplicitReassctx} (h : RbExplicitInv pkts ctx)
    (pkt : Packet) :
    ∃ ctx' o, rbExplicitReassctxAdd ctx pkts.length pkt = some (ctx', o) ∧
      RbExplicitInv (pkts ++ [pkt]) ctx' := by
  obtain ⟨hv4, hlast, ⟨ids, hset, hsub⟩, hkept, honce, hcov⟩ := h
  have hkept' : ∀ e ∈ ctx.packetList, (pkts ++ [pkt])[e.1]? = some e.2 := fun e he =>
    List.getElem?_append_left (List.getElem?_eq_some_iff.mp (hkept e he)).1 ▸ hkept e he
  have hrange : List.range (pkts ++ [pkt]).length = List.range pkts.length ++ [pkts.length] := by
    rw [List.length_append, List.length_singleton, List.range_succ]
  unfold rbExplicitReassctxAdd
  cases hacc : pkt.accept with
  | none =>
    have hfs : (pkts ++ [pkt]).filterMap Packet.accept = pkts.filterMap Packet.accept := by
      simp [hacc]
    refine ⟨_, none, rfl, hv4, by rw [hfs]; exact hlast, ⟨ids, ?_, hsub⟩, hkept', ?_, ?_⟩
    · rw [hfs]
      exact ⟨hset.tree, hset.ascending, hset.points, hset.lt⟩
    · rw [hrange, ← List.append_assoc]
      exact honce.append_right _
    · rw [hfs]
      exact hcov
  | some f =>
    have hfs : (pkts ++ [pkt]).filterMap Packet.accept = pkts.filterMap Packet.accept ++ [f] := by
      simp [hacc]
    have hb := length_lt_bound hset.nodup hsub
    obtain ⟨t1, r1, ids1, he1, hset1, hsub1, _⟩ :=
      lowerLast_spec (f := f) hlast hset (fun _ hi => hi.1) hb
    have hnew : RbholeLoc.ofPacket pkts.length ∉ ids1 := by
      intro hm
      rcases hsub _ (hsub1 hm) with hm | ⟨e, he, hm⟩
      · simp at hm
      · have := (List.getElem?_eq_some_iff.mp (hkept e he)).1
        simp only [RbholeLoc.ofPacket.injEq] at hm
        omega
    have hb1 : ids1.length < ctx.bound :=
      lt_of_le_of_lt (List.subperm_of_subset hset1.nodup hsub1).length_le hb
    have hv41 : RbExplicitReassctx.ipv6 { ctx with
        mostRestrictingLast := mostRestrictingLast (pkts.filterMap Packet.accept ++ [f])
        holeTree := t1, rbhole := r1 } = false := hv4
    obtain ⟨t2, r2, mod, ids2, he2, hset2, hsub2, hmod⟩ := addData_spec
      (decide (f.more = false ∧ ctx.mostRestrictingLast > f.last)) hv41 hset1 hnew f.le hb1
      (lt_of_le_of_lt (meetCount_le ..) hb1)
    have hmiss : ∀ i, (Missing (pkts.filterMap Packet.accept) i ∧
        i ≤ mostRestrictingLast (pkts.filterMap Packet.accept ++ [f])) ∧
          ¬(f.first ≤ i ∧ i ≤ f.last) ↔
        Missing ((pkts ++ [pkt]).filterMap Packet.accept) i := by
      intro i
      rw [hfs, missing_append_singleton, Frag.Has]
    have hle : mostRestrictingLast (pkts.filterMap Packet.accept ++ [f]) ≤
        ctx.mostRestrictingLast := hlast ▸ mostRestrictingLast_append_le _ f
    have hset3 := hset2.congr hmiss
    simp only [Option.bind_eq_bind, he1, Option.bind_some]
    rw [show ∀ t r l, RbExplicitReassctx.bound { ctx with
      mostRestrictingLast := l, holeTree := t, rbhole := r } = ctx.bound from fun _ _ _ => rfl, he2]
    simp only [Option.bind_some, Bool.not_false, Bool.and_true]
    split_ifs with hm
    · refine ⟨_, _, rfl, hv4, by rw [hfs], ⟨ids2, ?_, fun n hn => ?_⟩, fun e he => ?_, ?_,
        fun i hi hc => ?_⟩
      · exact ⟨hset3.tree, hset3.ascending, hset3.points, hset3.lt⟩
      · rcases List.mem_cons.mp (hsub2 hn) with rfl | hn
        · exact .inr ⟨(pkts.length, pkt), by simp, rfl⟩
        · rcases hsub n (hsub1 hn) with rfl | ⟨e, he, rfl⟩
          · exact .inl rfl
          · exact .inr ⟨e, by simp [he], rfl⟩
      · rcases List.mem_append.mp he with he | he
        · exact hkept' e he
        · rw [List.mem_singleton.mp he]
          simp
      · rw [hrange, List.map_append, List.append_assoc]
        exact (List.perm_append_comm.append_left _).trans
          (by rw [← List.append_assoc]; exact honce.append_right _)
      · rw [hfs, covered_append, covered_singleton] at hc
        simp only [List.filterMap_append, covered_append]
        rcases hc with hc | hc
        · exact .inl (hcov i (hi.trans hle) hc)
        · exact .inr (by simpa [hacc] using hc)
    · rw [Bool.not_eq_true] at hm
      obtain ⟨hf, rfl, hno⟩ := hmod hm
      rw [decide_eq_false_iff_not] at hf
      have hsame : mostRestrictingLast (pkts.filterMap Packet.accept ++ [f]) =
          ctx.mostRestrictingLast := by
        rw [mostRestrictingLast_append_singleton, ← hlast, if_neg hf]
      refine ⟨_, _, rfl, hv4, by rw [hfs], ⟨ids2, ?_, fun n hn => hsub n (hsub1 hn)⟩, hkept', ?_,
        fun i hi hc => ?_⟩
      · exact ⟨hset3.tree, hset3.ascending, hset3.points, hset3.lt⟩
      · rw [hrange, ← List.append_assoc]
        exact honce.append_right _
      · rw [hfs, covered_append, covered_singleton] at hc
        refine hcov i (hi.trans hle) (hc.elim id fun hhas => ?_)
        -- a byte that changed no hole had arrived before
        by_contra hnot
        exact hno i ⟨⟨by rw [← hlast, ← hsame]; exact hi, hnot⟩, hi⟩ hhas

/-- `rb_explicit_reassctx_init` and `rb_explicit_reassctx_add` for a sequence of packets, over
memory with the contents `heap` and `rbhole`. -/
def rbExplicitReassctxRun (heap : Heap RbholeLoc) (rbhole : RbholeLoc → Hole) (ipv6 : Bool)
    (pkts : List Packet) : Option RbExplicitReassctx := do
  let ctx ← rbExplicitReassctxInit heap rbhole ipv6
  pkts.zipIdx.foldlM (fun ctx e => (rbExplicitReassctxAdd ctx e.2 e.1).map Prod.fst) ctx

theorem rbExplicitReassctxRun_append {heap : Heap RbholeLoc} {ipv6 : Bool}
    {ctx ctx' : RbExplicitReassctx} {pkt : Packet} {o : Option Bool}
    (hrun : rbExplicitReassctxRun heap rbhole ipv6 pkts = some ctx)
    (hadd : rbExplicitReassctxAdd ctx pkts.length pkt = some (ctx', o)) :
    rbExplicitReassctxRun heap rbhole ipv6 (pkts ++ [pkt]) = some ctx' := by
  simp only [rbExplicitReassctxRun, Option.bind_eq_bind, Option.bind_eq_some_iff] at hrun ⊢
  obtain ⟨ctx0, hinit, hfold⟩ := hrun
  refine ⟨ctx0, hinit, ?_⟩
  rw [List.zipIdx_append, List.foldlM_append, hfold]
  simp [hadd]

/-- Every run succeeds and ends in a state with the invariant. -/
theorem rbExplicitReassctxRun_inv (heap : Heap RbholeLoc) (rbhole : RbholeLoc → Hole)
    (pkts : List Packet) :
    ∃ ctx, rbExplicitReassctxRun heap rbhole false pkts = some ctx ∧ RbExplicitInv pkts ctx := by
  induction pkts using List.reverseRecOn with
  | nil =>
    obtain ⟨ctx, hinit, h⟩ := rbExplicitReassctxInit_inv heap rbhole
    exact ⟨ctx, by rw [rbExplicitReassctxRun, hinit]; rfl, h⟩
  | append_singleton pkts pkt ih =>
    obtain ⟨ctx, hctx, h⟩ := ih
    obtain ⟨ctx', o, hadd, h'⟩ := rbExplicitReassctxAdd_inv h pkt
    exact ⟨ctx', rbExplicitReassctxRun_append hctx hadd, h'⟩

theorem rbExplicitReassctxComplete_iff {ctx : RbExplicitReassctx} (h : RbExplicitInv pkts ctx) :
    rbExplicitReassctxComplete ctx = true ↔
      ∀ i ≤ ctx.mostRestrictingLast, Covered (pkts.filterMap Packet.accept) i := by
  obtain ⟨ids, hset, _⟩ := h.holes
  rw [rbExplicitReassctxComplete, Option.isNone_iff_eq_none, hset.tree.root_eq_none,
    ← List.map_eq_nil_iff (f := ctx.rbhole), hset.ascending.eq_nil_iff, h.last]
  simp only [hset.points, Missing, not_and, not_not]

/-- In IPv4 mode, after every sequence of packets: nothing was aborted (neither in the comparison
function nor elsewhere), the hole tree is a red-black tree, its holes in order are nonempty,
disjoint and ascending and contain exactly the bytes `0 … most_restricting_last` that no accepted
fragment covers, every covered byte of that range is covered by a packet of the packet list, and
every packet is either in the packet list or has been freed, once. -/
theorem rb_explicit_tree_is_missing_bytes (heap : Heap RbholeLoc) (rbhole : RbholeLoc → Hole)
    (pkts : List Packet) : let fs := pkts.filterMap Packet.accept
    ∃ ctx, rbExplicitReassctxRun heap rbhole false pkts = some ctx ∧
      ctx.mostRestrictingLast = mostRestrictingLast fs ∧
      (∃ T : CTree RbholeLoc, Rep ctx.holeTree T ∧ T.IsRb ∧
        Ascending (T.toList.map ctx.rbhole) ∧
        ∀ i, InGaps (T.toList.map ctx.rbhole) i ↔ i ≤ ctx.mostRestrictingLast ∧ ¬Covered fs i) ∧
      (∀ i ≤ ctx.mostRestrictingLast, Covered fs i →
        ∃ e ∈ ctx.packetList, ∃ f, e.2.accept = some f ∧ f.Has i) ∧
      (∀ e ∈ ctx.packetList, pkts[e.1]? = some e.2) ∧
      (ctx.packetList.map Prod.fst ++ ctx.freed).Perm (List.range pkts.length) := by
  intro fs
  obtain ⟨ctx, hrun, h⟩ := rbExplicitReassctxRun_inv heap rbhole pkts
  obtain ⟨ids, hset, _⟩ := h.holes
  obtain ⟨⟨T, hT, hrb, rfl⟩, hasc, hpoints, _⟩ := hset
  refine ⟨ctx, hrun, h.last, ⟨T, hT, hrb, hasc, fun i => ?_⟩, fun i hi hc => ?_, h.kept, h.once⟩
  · rw [hpoints, Missing, h.last]
  · obtain ⟨f, hf, hhas⟩ := h.covered i hi hc
    obtain ⟨e, he, hacc⟩ := List.mem_filterMap.mp hf
    exact ⟨e, he, f, hacc, hhas⟩

end Pptk.Ipfrag
