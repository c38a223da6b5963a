import Pptk.Ipfrag.Rb815.Insert
import Pptk.Ipfrag.Rb815.Delete

/-!
# The holes in the tree

The nodes of the tree are the holes, in ascending order, each at its first byte and
with its length in the descriptor (`HoleTree`). A fragment splits a hole, takes it
out, cuts its end off or moves it to a later byte. Each of the four operations of
`add_data` is shown to do so to the list of holes, and to keep the tree.

What is left in invalid links (`Stale`) may be the number of a block that has become
a hole again only if it is the neighbour of the node on that side.

Results:
* `HoleTree.split`, `HoleTree.delete`, `HoleTree.shrink`, `HoleTree.move`.
-/

namespace Pptk.Ipfrag

open Pptk.Lib Pptk.Iphdr Pptk.Rbtree TPath Multiset Option PNode

/-! ## What is left in invalid links -/

/-- What an invalid link of `x` to side `d` may be left with: a block number that lies in no hole,
or one that `AllowsStale` has for the holes `gs`. -/
def Stale (gs : List Hole) (x : ℕ) (d : Side) (s : Fin 8192) : Prop :=
  s = 8191 ∨ ∀ g ∈ gs, g.Has (s * 8) → (s : ℕ) * 8 = 0 ∨
    g.first = s * 8 ∧ d.Lt x (s * 8) ∧ ∀ z ∈ gs, ¬(d.Lt x z.first ∧ d.Lt z.first (s * 8))

theorem lt_of_adjacent {L : List ℕ} (hL : L.Pairwise (· < ·)) {d : Side} {x y : ℕ}
    (h : Adjacent L d x y) : y ∈ L ∧ d.Lt x y ∧ ∀ z ∈ L, ¬(d.Lt x z ∧ d.Lt z y) := by
  obtain ⟨pre, post, rfl⟩ := h
  rw [List.pairwise_append, List.pairwise_append] at hL
  obtain ⟨⟨-, hmid, hpre⟩, -, hpost⟩ := hL
  cases d with
  | left =>
    simp only [Side.pick, List.pairwise_cons, List.mem_singleton, forall_eq] at hmid hpre hpost
    refine ⟨by simp [Side.pick], hmid.1, fun z hz => ?_⟩
    simp only [Side.Lt, Side.pick]
    simp only [Side.pick, List.mem_append, List.mem_cons, List.not_mem_nil, or_false] at hz
    rcases hz with (hz | rfl | rfl) | hz
    · have := hpre z hz y (by simp)
      omega
    · omega
    · omega
    · have := hpost x (by simp) z hz
      omega
  | right =>
    simp only [Side.pick, List.pairwise_cons, List.mem_singleton, forall_eq] at hmid hpre hpost
    refine ⟨by simp [Side.pick], hmid.1, fun z hz => ?_⟩
    simp only [Side.Lt, Side.pick]
    simp only [Side.pick, List.mem_append, List.mem_cons, List.not_mem_nil, or_false] at hz
    rcases hz with (hz | rfl | rfl) | hz
    · have := hpre z hz x (by simp)
      omega
    · omega
    · omega
    · have := hpost y (by simp) z hz
      omega

theorem allowsStale {gs : List Hole} (ha : Ascending gs) (hfit : ∀ g ∈ gs, g.first + 8 ≤ 65535) :
    AllowsStale (Stale gs) (gs.map Gap.first) := by
  refine ⟨ha.pairwise_first, fun _ _ => .inl rfl, fun k d s hadj => .inr fun g hg hhas => .inr ?_,
    fun k hk d s hs hmem hne => ?_⟩
  · obtain ⟨hmem, hlt, hno⟩ := lt_of_adjacent ha.pairwise_first hadj
    obtain ⟨h, hh, hfirst⟩ := List.mem_map.mp hmem
    obtain rfl := ha.eq_of_has hg hh hhas (by rw [Gap.Has, hfirst]; have := ha.1 h hh; omega)
    exact ⟨hfirst, hlt, fun z hz => hno _ (List.mem_map_of_mem hz)⟩
  · obtain ⟨g, hg, hfirst⟩ := List.mem_map.mp hmem
    have hle := ha.1 g hg
    rcases hs with rfl | hs
    · have := hfit g hg
      rw [hfirst] at this
      norm_num at this
    · rcases hs g hg (by rw [Gap.Has]; omega) with h0 | ⟨-, hlt, hno⟩
      · exact absurd h0 hne
      · refine ⟨hlt, fun z hz => ?_⟩
        obtain ⟨h, hh, rfl⟩ := List.mem_map.mp hz
        exact hno h hh

theorem Stale.mono {gs gs' : List Hole}
    (hsub : ∀ g' ∈ gs', ∃ g ∈ gs, g.first = g'.first ∧ g'.last ≤ g.last) {x : ℕ} {d : Side}
    {s : Fin 8192} (h : Stale gs x d s) : Stale gs' x d s := by
  refine h.imp_right fun h g' hg' hhas => ?_
  obtain ⟨g, hg, hfirst, hlast⟩ := hsub g' hg'
  rw [Gap.Has] at hhas
  refine (h g hg (by rw [Gap.Has]; omega)).imp_right fun hg' => ?_
  obtain ⟨h1, h2, h3⟩ := hg'
  refine ⟨by omega, h2, fun z' hz' => ?_⟩
  obtain ⟨z, hz, hz1, -⟩ := hsub z' hz'
  rw [← hz1]
  exact h3 z hz

section

variable {pre post : List Hole} {g : Hole} {a b x y : ℕ} {d : Side} {s : Fin 8192}

theorem mem_middle {g' : Hole} : g' ∈ pre ++ g :: post ↔ g' = g ∨ g' ∈ pre ++ post := by
  simp only [List.mem_append, List.mem_cons, or_left_comm]

/-- A hole moves to a later byte of itself. The node `x` that it is and becomes `y`, or that is
another one. -/
theorem Stale.move (ha : Ascending (pre ++ g :: post)) (h1 : g.first ≤ b) (h2 : b + 1 ≤ g.last)
    (hxy : x = g.first ∧ y = b + 1 ∨ x = y ∧ ∃ z ∈ pre ++ post, z.first = x)
    (h : Stale (pre ++ g :: post) x d s) : Stale (pre ++ ⟨b + 1, g.last⟩ :: post) y d s := by
  refine h.imp_right fun h g' hg' hhas => ?_
  rw [mem_middle] at hg'
  rcases hg' with rfl | hg'
  · -- no link was left with a block inside the hole
    simp only [Gap.Has] at hhas
    rcases h g (by simp) ⟨by omega, hhas.2⟩ with h0 | ⟨h0, -⟩ <;> omega
  · refine (h g' (mem_middle.mpr (.inr hg')) hhas).imp_right fun hnear => ?_
    obtain ⟨hfirst, hlt, hno⟩ := hnear
    have hbg := ha.beside hg'
    have hng := hno g (by simp)
    have hxg : x = g.first ∧ y = b + 1 ∨ x = y ∧ (x < g.first ∨ g.last < x) := by
      refine hxy.imp_right fun hother => ⟨hother.1, ?_⟩
      obtain ⟨he, z, hz, hzx⟩ := hother
      have := ha.beside hz
      omega
    refine ⟨hfirst, ?_, fun z hz => ?_⟩
    · cases d <;> simp only [Side.Lt, Side.pick] at hlt ⊢ <;> omega
    · rw [mem_middle] at hz
      rcases hz with rfl | hz
      · cases d <;> simp only [Side.Lt, Side.pick] at hlt hng ⊢ <;> omega
      · have hnz := hno z (mem_middle.mpr (.inr hz))
        have hbz := ha.beside hz
        cases d <;> simp only [Side.Lt, Side.pick] at hlt hnz ⊢ <;> omega

/-- A hole is split in two. A node without a child on the side of the new one has another node in
between. -/
theorem Stale.split (h1 : g.first < a) (hab : a ≤ b + 1) (h2 : b + 1 ≤ g.last)
    (hbetween : d.Lt x (b + 1) → ∃ z ∈ pre ++ g :: post, d.Lt x z.first ∧ d.Lt z.first (b + 1))
    (h : Stale (pre ++ g :: post) x d s) :
    Stale (pre ++ ⟨g.first, a - 1⟩ :: ⟨b + 1, g.last⟩ :: post) x d s := by
  have hmem : ∀ g' ∈ pre ++ ⟨g.first, a - 1⟩ :: ⟨b + 1, g.last⟩ :: post,
      g' = ⟨b + 1, g.last⟩ ∨ ∃ y ∈ pre ++ g :: post, y.first = g'.first ∧ g'.last ≤ y.last := by
    intro g' hg'
    simp only [List.mem_append, List.mem_cons] at hg'
    rcases hg' with hm | rfl | rfl | hm
    · exact .inr ⟨g', by simp [hm], rfl, le_rfl⟩
    · exact .inr ⟨g, by simp, rfl, by simp only; omega⟩
    · exact .inl rfl
    · exact .inr ⟨g', by simp [hm], rfl, le_rfl⟩
  refine h.imp_right fun h g' hg' hhas => ?_
  rw [Gap.Has] at hhas
  rcases hmem g' hg' with rfl | ⟨y, hy, hfirst, hlast⟩
  · -- no link was left with a block inside the hole
    simp only at hhas
    rcases h g (by simp) ⟨by omega, hhas.2⟩ with h0 | ⟨h0, -⟩ <;> omega
  · refine (h y hy ⟨by omega, by omega⟩).imp_right fun hnear => ?_
    obtain ⟨hf, hlt, hno⟩ := hnear
    refine ⟨by omega, hlt, fun z' hz' hbetween' => ?_⟩
    obtain ⟨hxz, hzs⟩ := hbetween'
    rcases hmem z' hz' with rfl | ⟨z, hz, hzf, -⟩
    · obtain ⟨z, hz, hz1, hz2⟩ := hbetween hxz
      exact hno z hz ⟨hz1, hz2.trans hzs⟩
    · rw [← hzf] at hxz hzs
      exact hno z hz ⟨hxz, hzs⟩

end

/-! ## Hanging in and moving a node -/

namespace Linked815

variable {D : ℕ → Prop} {W : ℕ × ℕ → Prop} {ctx ctx' : Rb815ctx} {T : CTree ℕ} {C : TPath ℕ}
  {f : Frame ℕ} {up : TPath ℕ} {x : ℕ}

theorem congr (h : Linked815 D ctx T) (hroot : ctx'.rootHole = ctx.rootHole)
    (hnode : ∀ k ∈ T.keys, (ctx'.loadHole k).node = (ctx.loadHole k).node) :
    Linked815 D ctx' T := by
  refine ⟨h.rep.congr (Rb815ctx.view_root_congr hroot) fun k hk => ?_, h.slot⟩
  rw [Rb815ctx.view_heap (h.isLoc hk), Rb815ctx.view_heap (h.isLoc hk), hnode k hk]

/-- A new red node at a missing child, as `add_data` stores it (iprb815.c:1455-1473, 1504-1519). -/
theorem attach (h : Linked815 D ctx (fill (f :: up) .leaf)) (hx : Slot D x)
    (hfresh : x ∉ (fill (f :: up) .leaf).keys) {hole : Rb815hole}
    (hnode : hole.node = (ctx.loadHole f.key).node) (n : Fin 65536) :
    Linked815 D ((ctx.storeHole f.key (hole.setChild f.side (.toLoc x))).storeHole x
        { Rb815hole.zero with len := n, parent := .toLoc f.key })
      (fill (f :: up) (.node false .leaf x .leaf)) := by
  have hxl : IsLoc x := ⟨hx.aligned, hx.fits⟩
  have hfm : f.key ∈ (fill (f :: up) .leaf).keys := by simp [TPath.keys]
  have hfl := h.isLoc hfm
  have hkeys : (fill (f :: up) (.node false .leaf x .leaf)).keys =
      x ::ₘ (fill (f :: up) .leaf).keys := by
    simp only [keys_fill, CTree.keys, add_zero, add_cons]
  refine ⟨⟨?_, ?_, ?_⟩, ?_⟩
  · have hroot : ctx.view.root = (fill (f :: up) (.node false .leaf x .leaf)).root? := by
      rw [h.rep.root]
      exact root?_fill_congr up (by simp)
    exact (Rb815ctx.view_root_congr rfl).trans hroot
  · refine (shape_attach h.rep.shape h.rep.nodup hfresh).congr fun k hk => ?_
    have hkl : IsLoc k := by
      rw [hkeys, mem_cons] at hk
      rcases hk with rfl | hk
      · exact hxl
      · exact h.isLoc hk
    rw [Rb815ctx.view_heap hkl, Rb815ctx.loadHole_storeHole (.inl hxl) hkl,
      Rb815ctx.loadHole_storeHole (.inl hfl) hkl, Lib.attach, Rb815ctx.view_heap hfl]
    split_ifs with h1 h2
    · simp only [Rb815hole.node, Link815.ptr_toLoc hfl]
      rfl
    · rw [Rb815hole.node_setChild, Link815.ptr_toLoc hxl, hnode]
    · rw [Rb815ctx.view_heap hkl]
  · rw [hkeys, nodup_cons]
    exact ⟨hfresh, h.rep.nodup⟩
  · intro k hk
    rw [hkeys, mem_cons] at hk
    rcases hk with rfl | hk
    · exact hx
    · exact h.slot k hk

theorem moveParent_eq (c : Rb815ctx) (l : Link815) (x : ℕ)
    (hl : ∀ y, l.ptr = some y →
      c.loadHole y = ctx.loadHole y ∧ (ctx.loadHole y).parent.valid = true) :
    (if l.valid then c.storeHole l.block { c.loadHole l.block with
        parent := { (c.loadHole l.block).parent with div8 := .ofNat _ (x / 8) } } else c) =
      c.storeIf l.loc { ctx.loadHole l.block with parent := .toLoc x } := by
  cases hp : l.ptr with
  | none =>
    rw [if_neg (by rw [Link815.valid_iff, hp]; simp), Link815.loc_of_none hp, Rb815ctx.storeIf,
      if_pos rfl]
  | some y =>
    obtain ⟨hload, hvalid⟩ := hl y hp
    have hne : y ≠ rb815Null := by
      rw [← Link815.block_of_ptr hp]
      exact l.block_lt.ne
    rw [if_pos (by rw [Link815.valid_iff, hp]; simp), Link815.loc_of_ptr hp, Rb815ctx.storeIf,
      if_neg hne, Link815.block_of_ptr hp, hload]
    simp only [hvalid]
    rfl

/-- The descriptor at `z` after the node `k` has moved to `x`. -/
def movedHole (ctx : Rb815ctx) (k x : ℕ) (n : Fin 65536) (z : ℕ) : Rb815hole :=
  let hole := ctx.loadHole k
  if hole.parent.ptr = some z then (ctx.loadHole z).setChild (sideOf ctx.nodes z k) (.toLoc x)
  else if hole.left.ptr = some z ∨ hole.right.ptr = some z then
    { ctx.loadHole z with parent := .toLoc x }
  else if z = x then { hole with len := n }
  else ctx.loadHole z

theorem moveHole_loads {b : Bool} {l r : CTree ℕ} {k dataLast : ℕ} (hW : ∀ k, Slot D k → W (k, 8))
    (h : Linked815 D ctx (C.fill (.node b l k r))) (hx : Slot D (dataLast + 1))
    (hfresh : dataLast + 1 ∉ (C.fill (.node b l k r)).keys) :
    ∃ ctx', ctx.moveHole k dataLast = some ctx' ∧
      (∀ z, IsLoc z → ctx'.loadHole z = movedHole ctx k (dataLast + 1)
        (.ofNat _ ((ctx.loadHole k).len + k + 65536 - (dataLast + 1))) z) ∧
      ctx'.rootHole = (if (ctx.loadHole k).parent.ptr = none then dataLast + 1 else ctx.rootHole) ∧
      Touches D W ctx.toPktBuf ctx'.toPktBuf := by
  have hroom := h.room hW
  have hlink : Linked ctx.nodes _ := h.rep_nodes.shape.linked h.rep.nodup
  have hk : k ∈ (C.fill (.node b l k r)).keys := by simp [CTree.keys]
  have hxl : IsLoc (dataLast + 1) := ⟨hx.aligned, hx.fits⟩
  have hnode : (ctx.loadHole k).node = ⟨b, l.root?, r.root?, C.parent?⟩ :=
    Linked815.loadHole_node (d := .left) h
  have hleft : (ctx.loadHole k).left.ptr = l.root? := congrArg left hnode
  have hright : (ctx.loadHole k).right.ptr = r.root? := congrArg right hnode
  have hpar : (ctx.loadHole k).parent.ptr = C.parent? := congrArg parent hnode
  have hxmod : (dataLast + 1) % 65536 = dataLast + 1 := Nat.mod_eq_of_lt (by have := hxl.2; omega)
  set hole : Rb815hole := { ctx.loadHole k with
    len := .ofNat _ ((ctx.loadHole k).len + k + 65536 - (dataLast + 1)) } with hhole
  have hl : ∀ y, (ctx.loadHole k).left.ptr = some y → y ∈ (C.fill (.node b l k r)).keys :=
    fun y hy => (hlink.left k hk y hy).1
  have hr : ∀ y, (ctx.loadHole k).right.ptr = some y → y ∈ (C.fill (.node b l k r)).keys :=
    fun y hy => (hlink.right k hk y hy).1
  have hnx : ∀ y ∈ (C.fill (.node b l k r)).keys, y ≠ dataLast + 1 := fun y hy he =>
    hfresh (he ▸ hy)
  have hvalid : ∀ y, (ctx.loadHole y).parent.ptr = some k → (ctx.loadHole y).parent.valid = true :=
    fun y hy => Link815.valid_iff.mpr (by rw [hy]; simp)
  have hL := moveParent_eq (ctx.storeHole (dataLast + 1) hole) (ctx.loadHole k).left (dataLast + 1)
    fun y hy => show _ = ctx.loadHole y ∧ _ by
      obtain ⟨hmem, hp, -⟩ := hlink.left k hk y hy
      rw [Rb815ctx.loadHole_storeHole (.inl hxl) (h.isLoc hmem), if_neg (hnx y hmem)]
      exact ⟨rfl, hvalid y hp⟩
  set ctx2 := (ctx.storeHole (dataLast + 1) hole).storeIf (ctx.loadHole k).left.loc
    { ctx.loadHole (ctx.loadHole k).left.block with parent := .toLoc (dataLast + 1) } with hctx2
  have hload2 : ∀ z, IsLoc z → ctx2.loadHole z =
      if (ctx.loadHole k).left.ptr = some z then
        { ctx.loadHole z with parent := .toLoc (dataLast + 1) }
      else if z = dataLast + 1 then hole else ctx.loadHole z := fun z hz => by
    rw [hctx2, Rb815ctx.loadHole_storeIf (hroom.isLoc_or hl) hz,
      Rb815ctx.loadHole_storeHole (.inl hxl) hz]
    simp only [eq_comm.trans (Link815.loc_eq_iff hz)]
    split_ifs with h1
    · rw [Link815.block_of_ptr h1]
    · rfl
    · rfl
  have hR := moveParent_eq ctx2 (ctx.loadHole k).right (dataLast + 1)
    fun y hy => show _ = ctx.loadHole y ∧ _ by
      obtain ⟨hmem, hp, -, hne⟩ := hlink.right k hk y hy
      have hne : (ctx.loadHole k).left.ptr ≠ some y := hne
      rw [hload2 y (h.isLoc hmem), if_neg hne, if_neg (hnx y hmem)]
      exact ⟨rfl, hvalid y hp⟩
  set ctx3 := ctx2.storeIf (ctx.loadHole k).right.loc
    { ctx.loadHole (ctx.loadHole k).right.block with parent := .toLoc (dataLast + 1) } with hctx3
  have hload3 : ∀ z, IsLoc z → ctx3.loadHole z =
      if (ctx.loadHole k).left.ptr = some z ∨ (ctx.loadHole k).right.ptr = some z then
        { ctx.loadHole z with parent := .toLoc (dataLast + 1) }
      else if z = dataLast + 1 then hole else ctx.loadHole z := fun z hz => by
    rw [hctx3, Rb815ctx.loadHole_storeIf (hroom.isLoc_or hr) hz, hload2 z hz]
    simp only [eq_comm.trans (Link815.loc_eq_iff hz)]
    by_cases h1 : (ctx.loadHole k).right.ptr = some z
    · rw [if_pos h1, if_pos (.inr h1), Link815.block_of_ptr h1]
    · simp only [h1, or_false, if_false]
  have ht3 : Touches D W ctx.toPktBuf ctx3.toPktBuf :=
    ((Rb815ctx.touches_storeHole hx (hW _ hx) _).trans
      (hroom.touches_storeIf hl _ _)).trans
      (hroom.touches_storeIf hr _ _)
  have heq : ctx.moveHole k dataLast = if (ctx.loadHole k).parent.valid = false then
      some { ctx3 with rootHole := dataLast + 1 }
    else ((ctx3.loadHole (ctx.loadHole k).parent.block).replaceChild k (dataLast + 1)).map
      (ctx3.storeHole (ctx.loadHole k).parent.block) := by
    rw [Rb815ctx.moveHole, hxmod]
    rw [if_neg (by rw [hxl.1]; simp)]
    simp only [← hhole]
    rw [hL, hR]
  rw [heq]
  cases C with
  | nil =>
    have hnone : (ctx.loadHole k).parent.ptr = none := hpar
    rw [if_pos (Link815.valid_eq_false_iff.mpr hnone)]
    refine ⟨_, rfl, fun z hz => ?_, by rw [if_pos hnone], ht3⟩
    refine (hload3 z hz).trans ?_
    simp only [movedHole, hnone, reduceCtorEq, if_false]
    rfl
  | cons f up =>
    have hsome : (ctx.loadHole k).parent.ptr = some f.key := hpar
    obtain ⟨hmem, hchild⟩ := hlink.parent k hk f.key hsome
    -- the parent is none of the children
    have hne : ¬((ctx.loadHole k).left.ptr = some f.key ∨
      (ctx.loadHole k).right.ptr = some f.key) := by
      have hnd := h.rep.nodup
      simp only [keys_fill, CTree.keys, TPath.keys, nodup_add, nodup_cons,
        disjoint_left, mem_add, mem_cons, not_or] at hnd
      have hf := hnd.2.2 (.inl rfl)
      rw [hleft, hright]
      rintro (he | he)
      · exact hf.2.1 (CTree.mem_keys_of_root? he)
      · exact hf.2.2 (CTree.mem_keys_of_root? he)
    have hload : ctx3.loadHole f.key = ctx.loadHole f.key := by
      rw [hload3 _ (h.isLoc hmem), if_neg hne, if_neg (hnx _ hmem)]
    rw [if_neg (by rw [Link815.valid_eq_false_iff, hsome]; simp), Link815.block_of_ptr hsome, hload,
      Rb815hole.replaceChild_eq (dataLast + 1) hchild]
    refine ⟨_, rfl, fun z hz => ?_, by simp [hsome, hctx3, hctx2],
      ht3.trans (hroom.touches_storeHole hmem _ _)⟩
    rw [Rb815ctx.loadHole_storeHole (.inl (h.isLoc hmem)) hz, hload3 z hz, movedHole]
    by_cases hzf : z = f.key
    · subst hzf
      rw [if_pos rfl, if_pos hsome]
      rfl
    · rw [if_neg hzf, if_neg fun he => hzf (some.inj (hsome.symm.trans he)).symm]

theorem move {b : Bool} {l r : CTree ℕ} {k dataLast : ℕ} (hW : ∀ k, Slot D k → W (k, 8))
    (h : Linked815 D ctx (C.fill (.node b l k r))) (hx : Slot D (dataLast + 1))
    (hfresh : dataLast + 1 ∉ (C.fill (.node b l k r)).keys) :
    ∃ ctx', ctx.moveHole k dataLast = some ctx' ∧
      Linked815 D ctx' (C.fill (.node b l (dataLast + 1) r)) ∧
      Touches D W ctx.toPktBuf ctx'.toPktBuf ∧
      ctx'.loadHole (dataLast + 1) = { ctx.loadHole k with
        len := .ofNat _ ((ctx.loadHole k).len + k + 65536 - (dataLast + 1)) } ∧
      ∀ z ∈ (C.fill (.node b l k r)).keys, z ≠ k →
        (ctx'.loadHole z).len = (ctx.loadHole z).len ∧
        ∀ A, (ctx.loadHole z).LeftIn A → (ctx'.loadHole z).LeftIn A := by
  obtain ⟨ctx', hmove, hload, hroot, ht⟩ := moveHole_loads hW h hx hfresh
  have hlink : Linked ctx.nodes _ := h.rep_nodes.shape.linked h.rep.nodup
  have hxl : IsLoc (dataLast + 1) := ⟨hx.aligned, hx.fits⟩
  -- the nodes are `k` or `dataLast + 1`, and the others
  have hkeys : ∀ x, (C.fill (.node b l x r)).keys = x ::ₘ (C.keys + (l.keys + r.keys)) :=
    fun x => by
    simp only [keys_fill, CTree.keys, add_cons]
  have hk : k ∈ (C.fill (.node b l k r)).keys := by simp [hkeys]
  have hnd := h.rep.nodup
  have hfresh' := hfresh
  rw [hkeys, nodup_cons] at hnd
  rw [hkeys, mem_cons, not_or] at hfresh'
  have hchild : ¬((ctx.loadHole k).left.ptr = some (dataLast + 1) ∨
      (ctx.loadHole k).right.ptr = some (dataLast + 1)) := by
    rintro (he | he)
    · exact hfresh (hlink.left k hk _ he).1
    · exact hfresh (hlink.right k hk _ he).1
  have hloadx : ctx'.loadHole (dataLast + 1) = { ctx.loadHole k with
      len := .ofNat _ ((ctx.loadHole k).len + k + 65536 - (dataLast + 1)) } := by
    have hp : (ctx.loadHole k).parent.ptr ≠ some (dataLast + 1) := fun he =>
      hfresh (hlink.parent k hk _ he).1
    rw [hload _ hxl, movedHole, if_neg hp, if_neg hchild, if_pos rfl]
  have hother : ∀ z ∈ (C.fill (.node b l k r)).keys, Relinked (ctx.loadHole z) (ctx'.loadHole z)
        (rename ctx.nodes k (dataLast + 1) z) ∧
      ∀ A, (ctx.loadHole z).LeftIn A → (ctx'.loadHole z).LeftIn A := by
    intro z hz
    have hne : z ≠ dataLast + 1 := fun he => hfresh (he ▸ hz)
    rw [hload _ (h.isLoc hz)]
    by_cases h1 : (ctx.loadHole k).parent.ptr = some z
    · have hr : rename ctx.nodes k (dataLast + 1) z = _ := (if_neg hne).trans (if_pos h1)
      rw [movedHole, if_pos h1, hr, ← Link815.ptr_toLoc hxl]
      exact ⟨.setChild _ _ _ fun hv => absurd hv Rb815ctx.toLoc_valid,
        fun A hA => hA.setChild fun hv => absurd hv Rb815ctx.toLoc_valid⟩
    by_cases h2 : (ctx.loadHole k).left.ptr = some z ∨ (ctx.loadHole k).right.ptr = some z
    · have hr : rename ctx.nodes k (dataLast + 1) z = _ :=
        (if_neg hne).trans ((if_neg h1).trans (if_pos h2))
      rw [movedHole, if_neg h1, if_pos h2, hr, ← Link815.ptr_toLoc hxl]
      exact ⟨.setParent _ _, fun A hA => hA.setParent⟩
    · have hr : rename ctx.nodes k (dataLast + 1) z = _ :=
        (if_neg hne).trans ((if_neg h1).trans (if_neg h2))
      rw [movedHole, if_neg h1, if_neg h2, if_neg hne, hr]
      exact ⟨.refl _, fun A hA => hA⟩
  refine ⟨ctx', hmove, ⟨⟨?_, ?_, ?_⟩, ?_⟩, ht, hloadx, fun z hz hne => ?_⟩
  · have hpar : (ctx.loadHole k).parent.ptr = C.parent? :=
      congrArg parent (Linked815.loadHole_node (d := .left) h)
    rw [view_root_eq (x := some (dataLast + 1)) hroot fun i hi => some.inj hi ▸ hxl, hpar,
      h.rep.root]
    cases C with
    | nil => rfl
    | cons f up =>
      rw [if_neg (by simp [parent?])]
      exact root?_fill_congr up (by simp)
  · refine (shape_rename h.rep_nodes.shape h.rep.nodup hfresh).congr fun z hz => ?_
    rw [hkeys, mem_cons] at hz
    rcases hz with rfl | hz
    · rw [Rb815ctx.view_heap hxl, hloadx, rename, if_pos rfl]
      rfl
    · have hz' : z ∈ (C.fill (.node b l k r)).keys := by simp [hkeys, hz]
      rw [Rb815ctx.view_heap (h.isLoc hz'), (hother z hz').1.node]
  · rw [hkeys, nodup_cons]
    exact ⟨hfresh'.2, hnd.2⟩
  · intro z hz
    rw [hkeys, mem_cons] at hz
    rcases hz with rfl | hz
    · exact hx
    · exact h.slot z (by simp [hkeys, hz])
  · exact ⟨(hother z hz).1.len, (hother z hz).2⟩

end Linked815

/-! ## The list of holes -/

/-- The nodes of the tree are the holes `gs`, the byte 65535 apart. -/
structure HoleTree (D : ℕ → Prop) (ctx : Rb815ctx) (gs : List Hole) (T : CTree ℕ) : Prop where
  tree : Tree815 D (Stale gs) ctx T
  nodes : T.toList = gs.map Gap.first
  asc : Ascending gs
  lt : ∀ g ∈ gs, g.last ≤ 65534
  len : ∀ g ∈ gs, ((ctx.loadHole g.first).len : ℕ) = g.last + 1 - g.first
  black : T.isRed = false

/-- A store inside the buffer, or a descriptor at the location that stands for none, which there is
only without `p`. -/
def StoresUnless (p : Prop) (s : ℕ × ℕ) : Prop := FitsPkt s ∨ ¬p ∧ s = (rb815Null, 8)

theorem StoresUnless.mono {p q : Prop} {s : ℕ × ℕ} (h : StoresUnless q s) (hpq : p → q) :
    StoresUnless p s := h.imp_right fun ⟨hq, hs⟩ => ⟨fun hp => hq (hpq hp), hs⟩

/-- What an operation on the holes does to the rest of the context. -/
abbrev HoleStep (D : ℕ → Prop) (p : Prop) (ctx ctx' : Rb815ctx) : Prop :=
  Touches D (StoresUnless p) ctx.toPktBuf ctx'.toPktBuf

theorem HoleStep.mono {D : ℕ → Prop} {p q : Prop} {ctx ctx' : Rb815ctx} (h : HoleStep D q ctx ctx')
    (hpq : p → q) : HoleStep D p ctx ctx' :=
  ⟨h.last, h.hdrLen, h.pktHeader, h.pkt, fun s hs => (h.stores s hs).imp_right (·.mono hpq)⟩

theorem Slot.storesUnless {D : ℕ → Prop} {k : ℕ} (p : Prop) (h : Slot D k) :
    StoresUnless p (k, 8) := .inl h.fits

namespace HoleTree

variable {D : ℕ → Prop} {ctx ctx' : Rb815ctx} {gs pre post : List Hole} {g : Hole} {T T' : CTree ℕ}

theorem of_linked (hl : Linked815 D ctx T) (hnodes : T.toList = gs.map Gap.first)
    (hasc : Ascending gs) (hlt : ∀ g ∈ gs, g.last ≤ 65534)
    (hlen : ∀ g ∈ gs, ((ctx.loadHole g.first).len : ℕ) = g.last + 1 - g.first)
    (hblack : T.isRed = false)
    (hstale : ∀ g ∈ gs, (ctx.loadHole g.first).LeftIn (Stale gs g.first)) :
    HoleTree D ctx gs T := by
  have hmem : ∀ k, k ∈ T.keys ↔ ∃ g ∈ gs, g.first = k := fun k => by
    rw [← CTree.mem_toList, hnodes, List.mem_map]
  refine ⟨⟨hl, ?_, fun k hk => ?_⟩, hnodes, hasc, hlt, hlen, hblack⟩
  · rw [hnodes]
    exact allowsStale hasc fun g hg => (hl.slot _ ((hmem _).mpr ⟨g, hg, rfl⟩)).fits
  · obtain ⟨g, hg, rfl⟩ := (hmem k).mp hk
    exact hstale g hg

theorem mem_keys (h : HoleTree D ctx gs T) {k : ℕ} : k ∈ T.keys ↔ ∃ g ∈ gs, g.first = k := by
  rw [← CTree.mem_toList, h.nodes, List.mem_map]

theorem slot (h : HoleTree D ctx gs T) (hg : g ∈ gs) : Slot D g.first :=
  h.tree.slot _ (h.mem_keys.mpr ⟨g, hg, rfl⟩)

theorem isLoc (h : HoleTree D ctx gs T) (hg : g ∈ gs) : IsLoc g.first :=
  ⟨(h.slot hg).aligned, (h.slot hg).fits⟩

theorem leftIn (h : HoleTree D ctx gs T) (hg : g ∈ gs) :
    (ctx.loadHole g.first).LeftIn (Stale gs g.first) :=
  h.tree.stale _ (h.mem_keys.mpr ⟨g, hg, rfl⟩)

theorem card_lt (h : HoleTree D ctx gs T) : T.keys.card < treeBound := by
  have hsub : (gs.map Gap.first).map (· / 8) ⊆ List.range 8192 := by
    intro i hi
    obtain ⟨k, hk, rfl⟩ := List.mem_map.mp hi
    obtain ⟨g, hg, rfl⟩ := List.mem_map.mp hk
    have := (h.slot hg).fits
    exact List.mem_range.mpr (by omega)
  have hnd : ((gs.map Gap.first).map (· / 8)).Nodup := by
    refine List.Nodup.map_on (fun x hx y hy hxy => ?_) h.asc.nodup_first
    obtain ⟨g, hg, rfl⟩ := List.mem_map.mp hx
    obtain ⟨g', hg', rfl⟩ := List.mem_map.mp hy
    have h1 := (h.slot hg).aligned
    have h2 := (h.slot hg').aligned
    omega
  have hlen := (List.subperm_of_subset hnd hsub).length_le
  rw [List.length_map, List.length_map, List.length_range] at hlen
  rw [← CTree.coe_toList, h.nodes, coe_card, List.length_map]
  exact Nat.lt_succ_of_le hlen

theorem fresh (h : HoleTree D ctx gs T) (hg : g ∈ gs) {i : ℕ} (h1 : g.first < i) (h2 : i ≤ g.last) :
    i ∉ T.keys := by
  rw [h.mem_keys]
  rintro ⟨g', hg', rfl⟩
  have := h.asc.eq_of_has hg hg' (i := g'.first) ⟨h1.le, h2⟩ ⟨le_rfl, h.asc.1 g' hg'⟩
  rw [this] at h1
  omega

theorem delete (hD : ∀ i, rb815Null ≤ i → D i) (h : HoleTree D ctx (pre ++ g :: post) T) :
    ∃ ctx' T', ctx.delete treeBound g.first = some ctx' ∧ HoleTree D ctx' (pre ++ post) T' ∧
      HoleStep D T.IsRb ctx ctx' ∧ (T.IsRb → (T'.IsRb ↔ ¬T.NeedsRepair g.first)) := by
  have hsub : (pre ++ post).Sublist (pre ++ g :: post) :=
    List.Sublist.append_left (List.sublist_cons_self g post) pre
  have hasc := h.asc.sublist hsub
  have herase : T.toList.erase g.first = (pre ++ post).map Gap.first := by
    have hnd := h.asc.nodup_first
    rw [List.map_append, List.map_cons] at hnd
    have hnot : g.first ∉ pre.map Gap.first := fun hm =>
      (List.nodup_append.mp hnd).2.2 _ hm _ (by simp) rfl
    rw [h.nodes, List.map_append, List.map_cons, List.erase_append_right _ hnot,
      List.erase_cons_head, List.map_append]
  have hnull : NullStore D (StoresUnless T.IsRb) ∨ T.IsRb := by
    by_cases hrb : T.IsRb
    · exact .inr hrb
    · exact .inl ⟨hD, .inr ⟨hrb, rfl⟩⟩
  have hA : AllowsStale (Stale (pre ++ post)) (T.toList.erase g.first) := by
    rw [herase]
    exact allowsStale hasc fun g' hg' => (h.slot (hsub.subset hg')).fits
  obtain ⟨ctx', T', hctx', h', hlist, hstep, hiff⟩ :=
    h.tree.delete (fun k hk => hk.storesUnless _) hnull
    (h.mem_keys.mpr ⟨g, by simp, rfl⟩) hA (fun _ _ _ => Stale.mono fun g' hg' =>
      ⟨g', hsub.subset hg', rfl, le_rfl⟩) h.card_lt.le
  rw [herase] at hlist
  refine ⟨ctx', T', hctx', ⟨h', hlist, hasc, fun g' hg' => h.lt g' (hsub.subset hg'),
    fun g' hg' => ?_, hstep.root h.black⟩, hstep.touches, hiff⟩
  rw [hstep.len _ (h.isLoc (hsub.subset hg')), h.len g' (hsub.subset hg')]

theorem shrink {v n : ℕ} (p : Prop) (h : HoleTree D ctx (pre ++ g :: post) T) (h1 : g.first ≤ v)
    (h2 : v ≤ g.last) (hn : n = v + 1 - g.first) :
    HoleTree D (ctx.storeHole g.first { ctx.loadHole g.first with len := .ofNat _ n })
        (pre ++ ⟨g.first, v⟩ :: post) T ∧
      HoleStep D p ctx (ctx.storeHole g.first { ctx.loadHole g.first with len := .ofNat _ n }) := by
  have hg : g ∈ pre ++ g :: post := by simp
  have hold : ∀ g' ∈ pre ++ post, g' ∈ pre ++ g :: post := fun g' hg' => mem_middle.mpr (.inr hg')
  have hsub : ∀ g' ∈ pre ++ ⟨g.first, v⟩ :: post, ∃ y ∈ pre ++ g :: post, y.first = g'.first ∧
      g'.last ≤ y.last := by
    intro g' hg'
    rcases mem_middle.mp hg' with rfl | hm
    · exact ⟨g, hg, rfl, h2⟩
    · exact ⟨g', hold g' hm, rfl, le_rfl⟩
  have hmid : Ascending [(⟨g.first, v⟩ : Hole)] := (ascending_singleton _).mpr h1
  have hasc := h.asc.replace hmid (by simpa using h2)
  have hload : ∀ k, IsLoc k →
      (ctx.storeHole g.first { ctx.loadHole g.first with len := .ofNat _ n }).loadHole k =
        if k = g.first then { ctx.loadHole g.first with len := .ofNat _ n } else ctx.loadHole k :=
    fun k hk => Rb815ctx.loadHole_storeHole (.inl (h.isLoc hg)) hk
  have hlast := h.lt g hg
  refine ⟨of_linked (h.tree.toLinked815.congr rfl fun k hk => ?_) ?_ hasc ?_ ?_ h.black ?_,
    Rb815ctx.touches_storeHole (h.slot hg) ((h.slot hg).storesUnless p) _⟩
  · rw [hload k (h.tree.isLoc hk)]
    split_ifs with he
    · rw [he]
      rfl
    · rfl
  · rw [h.nodes]
    simp
  · intro g' hg'
    obtain ⟨y, hy, -, hle⟩ := hsub g' hg'
    exact hle.trans (h.lt y hy)
  · intro g' hg'
    rcases mem_middle.mp hg' with rfl | hm
    · rw [hload _ (h.isLoc hg), if_pos rfl, hn]
      simp only [Fin.val_ofNat]
      omega
    · have hne := h.asc.beside hm
      have := h.asc.1 g hg
      rw [hload _ (h.isLoc (hold g' hm)), if_neg (by omega), h.len g' (hold g' hm)]
  · intro g' hg'
    obtain ⟨y, hy, hfirst, -⟩ := hsub g' hg'
    rw [← hfirst, hload _ (h.isLoc hy)]
    have hleft := (h.leftIn hy).mono fun _ _ => Stale.mono hsub
    split_ifs with he
    · rw [he] at hleft ⊢
      exact hleft.setLen _
    · exact hleft

theorem split_nodes {C : TPath ℕ} {c : Bool} {l r : CTree ℕ}
    (h : HoleTree D ctx (pre ++ g :: post) (C.fill (.node c l g.first r))) :
    C.before ++ l.toList = pre.map Gap.first ∧ r.toList ++ C.after = post.map Gap.first := by
  have hlist := h.nodes
  have hnd := h.asc.nodup_first
  rw [← hlist] at hnd
  rw [toList_fill, CTree.toList] at hlist hnd
  have heq : (C.before ++ l.toList) ++ g.first :: (r.toList ++ C.after) =
      pre.map Gap.first ++ g.first :: post.map Gap.first := by
    simpa using hlist
  have hnd' : ((C.before ++ l.toList) ++ g.first :: (r.toList ++ C.after)).Nodup := by
    simpa using hnd
  rw [List.nodup_append, List.nodup_cons] at hnd'
  obtain ⟨h1, -, h2⟩ := (List.append_cons_inj_of_notMem
    (fun hm => hnd'.2.2 _ hm _ (by simp) rfl) hnd'.2.1.1).mp heq
  exact ⟨h1, h2⟩

theorem move {b : ℕ} (p : Prop) (h : HoleTree D ctx (pre ++ g :: post) T) (h1 : g.first ≤ b)
    (h2 : b + 1 ≤ g.last) (hs : Slot D (b + 1)) :
    ∃ ctx' T', ctx.moveHole g.first b = some ctx' ∧
      HoleTree D ctx' (pre ++ ⟨b + 1, g.last⟩ :: post) T' ∧ HoleStep D p ctx ctx' ∧
      (T'.IsRb ↔ T.IsRb) ∧ ∀ k, k ≠ g.first → k ≠ b + 1 → (T'.NeedsRepair k ↔ T.NeedsRepair k) := by
  have hg : g ∈ pre ++ g :: post := by simp
  have hold : ∀ g' ∈ pre ++ post, g' ∈ pre ++ g :: post := fun g' hg' => mem_middle.mpr (.inr hg')
  obtain ⟨C, c, l, r, rfl⟩ := exists_fill_of_mem (h.mem_keys.mpr ⟨g, hg, rfl⟩)
  have hfresh := h.fresh hg (Nat.lt_succ_of_le h1) h2
  obtain ⟨ctx', hctx', hl', ht, hloadx, hload⟩ :=
    h.tree.toLinked815.move (W := StoresUnless p) (fun k hk => hk.storesUnless p) hs hfresh
  have hrb : (C.fill (.node c l (b + 1) r)).IsRb ↔ (C.fill (.node c l g.first r)).IsRb :=
    ⟨fun hrb => hrb.rekey _, fun hrb => hrb.rekey _⟩
  have hasc : Ascending (pre ++ (([⟨b + 1, g.last⟩] : List Hole) ++ post)) :=
    h.asc.replace ((ascending_singleton _).mpr h2) (by simp; omega)
  refine ⟨ctx', _, hctx', of_linked hl' ?_ hasc ?_ ?_ ?_ ?_, ht, hrb,
    fun k hk hk' => needsRepair_fill_rekey C c l r hk.symm hk'.symm⟩
  · obtain ⟨hpre, hpost⟩ := h.split_nodes
    rw [toList_fill, CTree.toList, List.map_append, List.map_cons, ← hpre, ← hpost]
    simp
  · intro g' hg'
    rcases mem_middle.mp hg' with rfl | hm
    · exact h.lt g hg
    · exact h.lt g' (hold g' hm)
  · have hlen := h.len g hg
    have hlast := h.lt g hg
    intro g' hg'
    rcases mem_middle.mp hg' with rfl | hm
    · simp only [hloadx, Fin.val_ofNat, hlen]
      omega
    · have := h.asc.beside hm
      have := h.asc.1 g hg
      rw [(hload _ (h.mem_keys.mpr ⟨g', hold g' hm, rfl⟩) (by omega)).1, h.len g' (hold g' hm)]
  · rw [isRed_fill_rekey _ _ _ _ g.first]
    exact h.black
  · intro g' hg'
    rcases mem_middle.mp hg' with rfl | hm
    · simp only [hloadx]
      exact ((h.leftIn hg).mono fun _ _ => Stale.move h.asc h1 h2 (.inl ⟨rfl, rfl⟩)).setLen _
    · have := h.asc.beside hm
      have := h.asc.1 g hg
      exact (hload _ (h.mem_keys.mpr ⟨g', hold g' hm, rfl⟩) (by omega)).2 _
        ((h.leftIn (hold g' hm)).mono
        fun _ _ => Stale.move h.asc h1 h2 (.inr ⟨rfl, g', hm, rfl⟩))

/-- A hole that has been split in two, with the node of the second one hung in behind that of the
first one, before the repair. -/
theorem hung {f : Frame ℕ} {up : TPath ℕ} {a b : ℕ} {ctx2 : Rb815ctx}
    (h : HoleTree D ctx (pre ++ g :: post) (fill (f :: up) .leaf)) (h1 : g.first < a)
    (hab : a ≤ b + 1) (h2 : b + 1 ≤ g.last)
    (hbefore : before (f :: up) = pre.map Gap.first ++ [g.first])
    (hafter : after (f :: up) = post.map Gap.first)
    (hl : Linked815 D ctx2 (fill (f :: up) (.node false .leaf (b + 1) .leaf)))
    (hnew : ∃ l, ctx2.loadHole (b + 1) =
      { Rb815hole.zero with len := .ofNat _ (g.last - b), parent := l })
    (hlen : ∀ g' ∈ pre ++ ⟨g.first, a - 1⟩ :: post,
      ((ctx2.loadHole g'.first).len : ℕ) = g'.last + 1 - g'.first)
    (hleft : ∀ g' ∈ pre ++ g :: post, ∀ A,
      (ctx.loadHole g'.first).LeftIn A → (ctx2.loadHole g'.first).LeftIn A) :
    HoleTree D ctx2 (pre ++ ⟨g.first, a - 1⟩ :: ⟨b + 1, g.last⟩ :: post)
      (fill (f :: up) (.node false .leaf (b + 1) .leaf)) := by
  have hg : g ∈ pre ++ g :: post := by simp
  have hlast := h.lt g hg
  have hmid : Ascending [(⟨g.first, a - 1⟩ : Hole), ⟨b + 1, g.last⟩] := by
    simp only [ascending_cons, List.mem_singleton, forall_eq, List.not_mem_nil, false_implies,
      implies_true, ascending_nil, and_true]
    omega
  have hasc := h.asc.replace hmid (by simp; omega)
  have hmem : ∀ g' ∈ pre ++ ⟨g.first, a - 1⟩ :: ⟨b + 1, g.last⟩ :: post,
      g' = ⟨b + 1, g.last⟩ ∨ g' ∈ pre ++ ⟨g.first, a - 1⟩ :: post := fun g' hg' => by
    simp only [List.mem_append, List.mem_cons] at hg' ⊢
    tauto
  have hold : ∀ g' ∈ pre ++ ⟨g.first, a - 1⟩ :: post, ∃ y ∈ pre ++ g :: post, y.first = g'.first ∧
      g'.last ≤ y.last := by
    intro g' hg'
    rcases mem_middle.mp hg' with rfl | hm
    · exact ⟨g, hg, rfl, by simp only; omega⟩
    · exact ⟨g', mem_middle.mpr (.inr hm), rfl, le_rfl⟩
  have hnodes : (fill (f :: up) (.node false .leaf (b + 1) .leaf)).toList =
      (pre ++ ⟨g.first, a - 1⟩ :: ⟨b + 1, g.last⟩ :: post).map Gap.first := by
    rw [toList_fill, hbefore, hafter]
    simp [CTree.toList]
  refine of_linked hl hnodes hasc ?_ ?_ ?_ ?_
  · intro g' hg'
    rcases hmem g' hg' with rfl | hm
    · exact hlast
    · obtain ⟨y, hy, -, hle⟩ := hold g' hm
      exact hle.trans (h.lt y hy)
  · intro g' hg'
    rcases hmem g' hg' with rfl | hm
    · obtain ⟨l, hload⟩ := hnew
      simp only [hload, Fin.val_ofNat]
      omega
    · exact hlen g' hm
  · have := h.black
    rw [isRed_fill_cons] at this ⊢
    exact this
  · intro g' hg' d hd
    rcases hmem g' hg' with rfl | hm
    · obtain ⟨l, hload⟩ := hnew
      simp only [hload]
      exact .inr fun _ _ _ => .inl (by cases d <;> rfl)
    · obtain ⟨y, hy, hfirst, -⟩ := hold g' hm
      rw [← hfirst] at hd ⊢
      refine Stale.split h1 hab h2 (fun hlt => ?_) (hleft y hy _ (h.leftIn hy) d hd)
      -- the node has no child on the side of the new one
      have hmemk : ∀ k, k ∈ TPath.keys (f :: up) ↔ ∃ z ∈ pre ++ g :: post, z.first = k :=
        fun k => by
        rw [← h.mem_keys, keys_fill, CTree.keys, add_zero]
      obtain ⟨z, hz, hxz, hzb⟩ := hl.rep_nodes.shape.exists_between
        (by rw [hnodes]; exact hasc.pairwise_first) (by simp [CTree.keys])
        ((hmemk _).mpr ⟨y, hy, rfl⟩) hlt
        (((ctx2.loadHole y.first).node_child d).trans (Link815.valid_eq_false_iff.mp hd))
      obtain ⟨w, hw, rfl⟩ := (hmemk z).mp hz
      exact ⟨w, hw, hxz, hzb⟩

theorem insertRepair {f : Frame ℕ} {up : TPath ℕ} {k : ℕ} (p : Prop)
    (h : HoleTree D ctx gs (fill (f :: up) (.node false .leaf k .leaf))) (hk : k ≠ 0) :
    ∃ ctx' T', ctx.insertRepair treeBound k = some ctx' ∧ HoleTree D ctx' gs T' ∧
      HoleStep D p ctx ctx' ∧ ((fill (f :: up) .leaf).IsRb → T'.IsRb) := by
  have htop : topBlack (f :: up) = true := by
    have := h.black
    rwa [isRed_fill_cons, Bool.not_eq_false'] at this
  have hlen : List.length (f :: up) < treeBound := by
    have hcard := h.card_lt
    have := length_le_card (f :: up)
    rw [keys_fill, card_add] at hcard
    omega
  obtain ⟨ctx', hctx', h', hstep⟩ := h.tree.insertRepair (W := StoresUnless p)
    (fun k hk => hk.storesUnless p) hk htop hlen
  refine ⟨ctx', _, hctx', ⟨h', ?_, h.asc, h.lt, fun g hg => ?_, isRed_insertFix htop⟩,
    hstep.touches, fun hrb => ?_⟩
  · rw [toList_insertFix, h.nodes]
  · rw [hstep.len _ (h.isLoc hg), h.len g hg]
  · obtain ⟨n, hP, hn, -⟩ := exists_pathRb hrb
    exact isRb_insertFix hP hn hn ⟨rfl, rfl⟩

/-- A hole is split: its descriptor gets another length, and the node of the second part is hung in
at the missing child `f` and repaired. The context `ctxA` is the one before the link to the new node
is stored. -/
theorem hang (f : Frame ℕ) (up : TPath ℕ) {a b : ℕ} {ctxA : Rb815ctx} (hole : Rb815hole) (p : Prop)
    (h : HoleTree D ctx (pre ++ g :: post) (fill (f :: up) .leaf)) (h1 : g.first < a)
    (hab : a ≤ b + 1) (h2 : b + 1 ≤ g.last) (hs : Slot D (b + 1))
    (hbefore : before (f :: up) = pre.map Gap.first ++ [g.first])
    (hafter : after (f :: up) = post.map Gap.first) (hl : Linked815 D ctxA (fill (f :: up) .leaf))
    (hnode : hole.node = (ctxA.loadHole f.key).node)
    (hload : ∀ g' ∈ pre ++ g :: post,
      let hd := if g'.first = f.key then hole else ctxA.loadHole g'.first
      (hd.len : ℕ) = (if g'.first = g.first then a - g.first else g'.last + 1 - g'.first) ∧
        ∀ A, (ctx.loadHole g'.first).LeftIn A → hd.LeftIn A) (ht : HoleStep D p ctx ctxA) :
    ∃ ctx' T', ((ctxA.storeHole f.key (hole.setChild f.side (.toLoc (b + 1)))).storeHole (b + 1)
          { Rb815hole.zero with len := .ofNat _ (g.last - b), parent := .toLoc f.key }).insertRepair
          treeBound (b + 1) = some ctx' ∧
      HoleTree D ctx' (pre ++ ⟨g.first, a - 1⟩ :: ⟨b + 1, g.last⟩ :: post) T' ∧
      HoleStep D p ctx ctx' ∧ ((fill (f :: up) .leaf).IsRb → T'.IsRb) := by
  have hg : g ∈ pre ++ g :: post := by simp
  have hsl : IsLoc (b + 1) := ⟨hs.aligned, hs.fits⟩
  have hfresh := h.fresh hg (by omega) h2
  have hfm : f.key ∈ (fill (f :: up) .leaf).keys := by simp [TPath.keys]
  have hfl := hl.isLoc hfm
  set ctx2 := (ctxA.storeHole f.key (hole.setChild f.side (.toLoc (b + 1)))).storeHole (b + 1)
    { Rb815hole.zero with len := .ofNat _ (g.last - b), parent := .toLoc f.key } with hctx2
  have hload2 : ∀ g' ∈ pre ++ g :: post, ctx2.loadHole g'.first =
      if g'.first = f.key then hole.setChild f.side (.toLoc (b + 1))
        else ctxA.loadHole g'.first := by
    intro g' hg'
    have hne : g'.first ≠ b + 1 := fun he => hfresh (h.mem_keys.mpr ⟨g', hg', he⟩)
    rw [hctx2, Rb815ctx.loadHole_storeHole (.inl hsl) (h.isLoc hg'), if_neg hne,
      Rb815ctx.loadHole_storeHole (.inl hfl) (h.isLoc hg')]
  have hdesc : ∀ g' ∈ pre ++ g :: post, ((ctx2.loadHole g'.first).len : ℕ) =
        (if g'.first = g.first then a - g.first else g'.last + 1 - g'.first) ∧
      ∀ A, (ctx.loadHole g'.first).LeftIn A → (ctx2.loadHole g'.first).LeftIn A := by
    intro g' hg'
    obtain ⟨hlen, hleft⟩ := hload g' hg'
    rw [hload2 g' hg']
    by_cases hf : g'.first = f.key
    · simp only [if_pos hf] at hlen hleft ⊢
      rw [Rb815hole.len_setChild]
      exact ⟨hlen, fun A hA => (hleft A hA).setChild fun hv => absurd hv Rb815ctx.toLoc_valid⟩
    · simp only [if_neg hf] at hlen hleft ⊢
      exact ⟨hlen, hleft⟩
  have h₂ : HoleTree D ctx2 (pre ++ ⟨g.first, a - 1⟩ :: ⟨b + 1, g.last⟩ :: post)
      (fill (f :: up) (.node false .leaf (b + 1) .leaf)) := by
    refine h.hung h1 hab h2 hbefore hafter (hl.attach hs hfresh hnode _)
      ⟨.toLoc f.key, by rw [hctx2, Rb815ctx.loadHole_storeHole_self]⟩ (fun g' hg' => ?_)
      fun g' hg' => (hdesc g' hg').2
    rcases mem_middle.mp hg' with rfl | hm
    · rw [(hdesc g hg).1, if_pos rfl]
      simp only
      omega
    · have := h.asc.beside hm
      have := h.asc.1 g hg
      rw [(hdesc g' (mem_middle.mpr (.inr hm))).1, if_neg (by omega)]
  obtain ⟨ctx', T', hctx', h', ht', hrb⟩ := h₂.insertRepair p (Nat.succ_ne_zero b)
  have ht2 : HoleStep D p ctx ctx2 := (ht.trans (Rb815ctx.touches_storeHole (hl.slot _ hfm)
    ((hl.slot _ hfm).storesUnless p) _)).trans (Rb815ctx.touches_storeHole hs (hs.storesUnless p) _)
  exact ⟨ctx', T', hctx', h', ht2.trans ht', hrb⟩

theorem split {a b : ℕ} (p : Prop) (h : HoleTree D ctx (pre ++ g :: post) T) (h1 : g.first < a)
    (hab : a ≤ b + 1) (h2 : b + 1 ≤ g.last) (hs : Slot D (b + 1)) :
    ∃ ctx' T', ctx.splitHole g.first a b = some ctx' ∧
      HoleTree D ctx' (pre ++ ⟨g.first, a - 1⟩ :: ⟨b + 1, g.last⟩ :: post) T' ∧
      HoleStep D p ctx ctx' ∧ (T.IsRb → T'.IsRb) := by
  have hg : g ∈ pre ++ g :: post := by simp
  have hlast := h.lt g hg
  have hgl := h.isLoc hg
  have hsl : IsLoc (b + 1) := ⟨hs.aligned, hs.fits⟩
  obtain ⟨C, c, l, r, rfl⟩ := exists_fill_of_mem (h.mem_keys.mpr ⟨g, hg, rfl⟩)
  have hfresh := h.fresh hg (by omega) h2
  obtain ⟨hpre, hpost⟩ := h.split_nodes
  have hr : (ctx.loadHole g.first).right.ptr = r.root? :=
    Linked815.child_ptr (d := .right) h.tree.toLinked815
  have hbmod : (b + 1) % 65536 = b + 1 := Nat.mod_eq_of_lt (by have := hsl.2; omega)
  have hlenb : g.first + ((ctx.loadHole g.first).len : ℕ) - (b + 1) = g.last - b := by
    rw [h.len g hg]
    omega
  rw [Rb815ctx.splitHole, hbmod, hlenb]
  simp only [hsl.1, ne_eq, not_true_eq_false, false_or, Link815.valid_eq_false_iff, hr]
  by_cases hleaf : r = .leaf
  · subst hleaf
    rw [if_pos (CTree.root?_eq_none.mpr rfl), if_neg (by rw [hgl.1]; simp)]
    refine hang ⟨.right, c, g.first, l⟩ C { ctx.loadHole g.first with
      len := .ofNat _ (a - g.first) } p h h1 hab h2 hs ?_ ?_ h.tree.toLinked815 rfl
      (fun g' hg' => ?_) (.refl _)
    · rw [before, ← hpre]
      simp [Side.pick]
    · rw [after, ← hpost]
      rfl
    · intro hd
      by_cases hf : g'.first = g.first
      · have hhd : hd = { ctx.loadHole g.first with len := .ofNat _ (a - g.first) } := if_pos hf
        rw [if_pos hf, hhd, hf]
        exact ⟨by simp only [Fin.val_ofNat]; omega, fun A hA => hA.setLen _⟩
      · have hhd : hd = ctx.loadHole g'.first := if_neg hf
        rw [if_neg hf, hhd]
        exact ⟨h.len g' hg', fun A hA => hA⟩
  · -- the new node becomes the first one of the right subtree
    obtain ⟨m, hm⟩ := ne_none_iff_exists'.mp (CTree.root?_eq_none.not.mpr hleaf)
    rw [if_neg (CTree.root?_eq_none.not.mpr hleaf)]
    obtain ⟨h₁, hstep⟩ := h.shrink (v := a - 1) (n := a - g.first) p (by omega) (by omega)
      (by omega)
    set ctx1 := ctx.storeHole g.first { ctx.loadHole g.first with len := .ofNat _ (a - g.first) }
      with hctx1
    have hload1 : ∀ k, IsLoc k → ctx1.loadHole k =
        if k = g.first then { ctx.loadHole g.first with len := .ofNat _ (a - g.first) }
        else ctx.loadHole k := fun k hk => Rb815ctx.loadHole_storeHole (.inl hgl) hk
    clear_value ctx1
    have hcard := h₁.card_lt
    obtain ⟨P, c2, x, R, rfl, hside, hdesc⟩ : ∃ (P : TPath ℕ) (c2 : Bool) (x : ℕ) (R : CTree ℕ),
        r = P.fill (.mk .left c2 x .leaf R) ∧ (∀ f ∈ P, f.side = .left) ∧
          ctx1.view.descend .left treeBound m = some x := by
      have hshape := h₁.tree.rep.shape
      rw [shape_fill] at hshape
      rw [keys_fill, CTree.keys, card_add, card_cons, card_add] at hcard
      exact Rep.descend hshape.2.2.2 hm (by omega)
    have hmk : m ∈ (C.fill (.node c l g.first (P.fill (.mk .left c2 x .leaf R)))).keys := by
      rw [keys_fill, CTree.keys]
      exact mem_add.mpr (.inr (mem_cons_of_mem
        (mem_add.mpr (.inr (CTree.mem_keys_of_root? hm)))))
    have hT : C.fill (.node c l g.first (P.fill (.mk .left c2 x .leaf R))) =
        fill (⟨.left, c2, x, R⟩ :: (P ++ ⟨.right, c, g.first, l⟩ :: C)) .leaf := by
      rw [fill_cons, fill_append]
      rfl
    have hd : ctx1.descend .left treeBound (ctx.loadHole g.first).right.block = some x := by
      rw [Link815.block_of_ptr (hr.trans hm), h₁.tree.toLinked815.descend_eq hmk, hdesc]
    have hxl : IsLoc x := h₁.tree.toLinked815.isLoc (by simp [CTree.keys])
    rw [hd, bind_eq_bind, bind_some, if_neg (by rw [hxl.1]; simp)]
    rw [hT] at h h₁ ⊢
    refine hang ⟨.left, c2, x, R⟩ (P ++ ⟨.right, c, g.first, l⟩ :: C) (ctx1.loadHole x) p h h1 hab
      h2 hs ?_ ?_ h₁.tree.toLinked815 rfl (fun g' hg' => ?_) hstep
    · rw [before, before_append, before, before_eq_nil hside, ← hpre]
      simp [Side.pick]
    · rw [after, after_append, after, ← hpost, toList_fill,
        before_eq_nil hside, CTree.toList_mk_left]
      simp [Side.pick, CTree.toList]
    · intro hhd
      have heq : hhd = ctx1.loadHole g'.first := by
        by_cases hx : g'.first = x
        · exact (if_pos hx).trans (by rw [hx])
        · exact if_neg hx
      rw [heq, hload1 _ (h.isLoc hg')]
      by_cases hf : g'.first = g.first
      · rw [if_pos hf, if_pos hf, hf]
        exact ⟨by simp only [Fin.val_ofNat]; omega, fun A hA => hA.setLen _⟩
      · rw [if_neg hf, if_neg hf]
        exact ⟨h.len g' hg', fun A hA => hA⟩

end HoleTree

end Pptk.Ipfrag
