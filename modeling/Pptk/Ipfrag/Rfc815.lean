import Pptk.Ipfrag.Buffer
import Pptk.Ipfrag.Reass
import Pptk.Lib.DList

/-!
# The RFC 815 engine

Model of `ipfrag/rfc815.c`. The holes are a doubly linked list whose descriptors
lie in the packet buffer, each at the first byte of its hole. The loops make the
same changes to the holes as those of the linked-list engine (`clipHoles`,
`punchHoles`), but on descriptors that share their bytes with the payload.

The 16-bit words of a descriptor are loaded and stored in the byte order of the
host, which nothing else observes; it is little-endian here.

Main results: `punchHoleList_spec`, `rfc815_list_is_missing_blocks` and `rfc815_round_trip`.
-/

namespace Pptk.Ipfrag

open Pptk.Lib Pptk.Iphdr List Option

/-- `struct rfc815hole` (rfc815.h:15-20). -/
structure Rfc815hole where
  first : ℕ
  last : ℕ
  nextHole : ℕ
  prevHole : ℕ

/-- `struct rfc815ctx` (rfc815.h:22-30). -/
structure Rfc815ctx extends PktBuf where
  firstHole : ℕ
  lastHole : ℕ

/-- The index that stands for no hole. -/
abbrev rfc815Null : ℕ := 65535

namespace Rfc815ctx

/-- `memcpy(&hole, &ctx->pkt[idx], sizeof(hole))`. -/
def loadHole (ctx : Rfc815ctx) (idx : ℕ) : Rfc815hole :=
  ⟨word16 ctx.pkt idx, word16 ctx.pkt (idx + 2), word16 ctx.pkt (idx + 4), word16 ctx.pkt (idx + 6)⟩

/-- `memcpy(&ctx->pkt[idx], &hole, sizeof(hole))`. -/
def storeHole (ctx : Rfc815ctx) (idx : ℕ) (hole : Rfc815hole) : Rfc815ctx :=
  let words := [hole.first, hole.last, hole.nextHole, hole.prevHole]
  { ctx with toPktBuf := ctx.store idx (structMem fun k => words.getD k 0) 0 8 }

/-- `holenonptr_set_prev` (rfc815.c:60-71). -/
def holenonptrSetPrev (ctx : Rfc815ctx) (idx prev : ℕ) : Rfc815ctx :=
  if idx = rfc815Null then { ctx with lastHole := prev }
  else ctx.storeHole idx { ctx.loadHole idx with prevHole := prev }

/-- `holenonptr_set_next` (rfc815.c:73-84). -/
def holenonptrSetNext (ctx : Rfc815ctx) (idx next : ℕ) : Rfc815ctx :=
  if idx = rfc815Null then { ctx with firstHole := next }
  else ctx.storeHole idx { ctx.loadHole idx with nextHole := next }

/-- The two calls that take a hole out of the list. -/
def deleteHole (ctx : Rfc815ctx) (hole : Rfc815hole) : Rfc815ctx :=
  (ctx.holenonptrSetNext hole.prevHole hole.nextHole).holenonptrSetPrev hole.nextHole hole.prevHole

end Rfc815ctx

/-- `rfc815ctx_init_fast` (rfc815.c:46-58) over a context with arbitrary contents. -/
def rfc815ctxInitFast (ctx : Rfc815ctx) : Rfc815ctx :=
  let ctx := { ctx with firstHole := 0, lastHole := 0, mostRestrictingLast := 65535, hdrLen := 0,
                        stores := [] }
  ctx.storeHole 0 ⟨0, 65535, 65535, 65535⟩

/-- `rfc815ctx_complete` (rfc815.h:38-51); `none` is an `abort()`. -/
def rfc815ctxComplete (ctx : Rfc815ctx) : Option Bool :=
  if ctx.firstHole = rfc815Null ∧ ctx.lastHole ≠ rfc815Null then none
  else if ctx.firstHole ≠ rfc815Null ∧ ctx.lastHole = rfc815Null then none
  else some (ctx.firstHole = rfc815Null)

/-- The loop that follows a lower end of the datagram (rfc815.c:157-178), at most `fuel` iterations.
-/
def clipHoleList : ℕ → Rfc815ctx → ℕ → Option Rfc815ctx
  | 0, _, _ => none
  | fuel + 1, ctx, iter =>
    if iter = rfc815Null then some ctx
    else
      let hole := ctx.loadHole iter
      if hole.first > ctx.mostRestrictingLast then
        clipHoleList fuel (ctx.deleteHole hole) hole.nextHole
      else if hole.last > ctx.mostRestrictingLast then
        clipHoleList fuel (ctx.storeHole iter { hole with last := ctx.mostRestrictingLast })
          hole.nextHole
      else clipHoleList fuel ctx hole.nextHole

/-- The branch of the second loop for a fragment that ends in the hole and does not reach its first
byte (rfc815.c:230-245). -/
def splitHoleList (ctx : Rfc815ctx) (iter : ℕ) (hole : Rfc815hole) (dataFirst dataLast : ℕ) :
    Rfc815ctx :=
  let ctx := ctx.holenonptrSetPrev hole.nextHole (dataLast + 1)
  let ctx := ctx.storeHole iter { hole with last := dataFirst - 1, nextHole := dataLast + 1 }
  ctx.storeHole (dataLast + 1) ⟨dataLast + 1, hole.last, hole.nextHole, iter⟩

/-- The branch of the second loop that moves a hole behind the fragment (rfc815.c:220-224). -/
def moveHole (ctx : Rfc815ctx) (hole : Rfc815hole) (dataLast : ℕ) : Rfc815ctx :=
  let ctx := ctx.holenonptrSetNext hole.prevHole (dataLast + 1)
  let ctx := ctx.holenonptrSetPrev hole.nextHole (dataLast + 1)
  ctx.storeHole (dataLast + 1) { hole with first := dataLast + 1 }

/-- The loop that takes out the bytes of a fragment (rfc815.c:191-273). Returns the context and
`mod`. -/
def punchHoleList (dataFirst dataLast : ℕ) : ℕ → Rfc815ctx → ℕ → Bool → Option (Rfc815ctx × Bool)
  | 0, _, _, _ => none
  | fuel + 1, ctx, iter, mod =>
    if iter = rfc815Null then some (ctx, mod)
    else
      let hole := ctx.loadHole iter
      if dataLast = hole.last then
        if dataFirst ≤ hole.first then some (ctx.deleteHole hole, true)
        else some (ctx.storeHole iter { hole with last := dataFirst - 1 }, true)
      else if dataLast < hole.last then
        if dataFirst ≤ hole.first then
          if dataLast + 1 > hole.first then some (moveHole ctx hole dataLast, true)
          else some (ctx, mod)
        else some (splitHoleList ctx iter hole dataFirst dataLast, true)
      else if dataFirst ≤ hole.first then
        punchHoleList dataFirst dataLast fuel (ctx.deleteHole hole) hole.nextHole true
      else if hole.last > dataFirst - 1 then
        punchHoleList dataFirst dataLast fuel
          (ctx.storeHole iter { hole with last := dataFirst - 1 }) hole.nextHole true
      else punchHoleList dataFirst dataLast fuel ctx hole.nextHole mod

/-- More than the number of holes there can be. -/
abbrev holeBound : ℕ := 65537

/-- The second loop and the copy of the payload (rfc815.c:190-277). -/
def rfc815AddData (ctx : Rfc815ctx) (pkt : Packet) (dataFirst dataLast : ℕ) : Option Rfc815ctx := do
  let (ctx, mod) ← punchHoleList dataFirst dataLast holeBound ctx ctx.firstHole false
  if mod then
    some { ctx with
      toPktBuf := ctx.store dataFirst pkt.data (ipPayload pkt.data ipOff)
        (dataLast + 1 - dataFirst) }
  else some ctx

/-- `rfc815ctx_add` (rfc815.c:125-278). -/
def rfc815ctxAdd (ctx : Rfc815ctx) (pkt : Packet) : Option Rfc815ctx :=
  if pkt.badLength then some ctx
  else
    let ctx := { ctx with toPktBuf := ctx.takeHeader pkt }
    if pkt.dataLast > 65535 then some ctx
    else if pkt.moreFrags = false ∧ ctx.mostRestrictingLast > pkt.dataLast then do
      let ctx ← clipHoleList holeBound { ctx with mostRestrictingLast := pkt.dataLast }
        ctx.firstHole
      rfc815AddData ctx pkt pkt.dataFirst pkt.dataLast
    else if pkt.dataLast < 7 then some ctx
    else rfc815AddData ctx pkt pkt.dataFirst (roundLast pkt.dataLast)

/-- `rfc815ctx_reassemble` (rfc815.c:13-38). -/
def rfc815ctxReassemble (e : Endian) (alloc : Option Packet) (ctx : Rfc815ctx) :
    Option (Option Packet) :=
  ctx.reassemble e alloc

/-! ## The descriptors as a doubly linked list -/

namespace Rfc815hole

/-- The range and the links of a descriptor. -/
def node (hole : Rfc815hole) :
    DNode ℕ Hole := ⟨⟨hole.first, hole.last⟩, hole.nextHole, hole.prevHole⟩

/-- The fields of a descriptor are `uint16_t`. -/
def Fits (hole : Rfc815hole) : Prop :=
  hole.first < 65536 ∧ hole.last < 65536 ∧ hole.nextHole < 65536 ∧ hole.prevHole < 65536

end Rfc815hole

namespace Rfc815ctx

/-- The descriptors at the block boundaries, with the two ends of the list. -/
def view (ctx : Rfc815ctx) : DList ℕ Hole where
  first := ctx.firstHole
  last := ctx.lastHole
  node i := if i % 8 = 0 then (ctx.loadHole i).node else ⟨⟨0, 0⟩, 0, 0⟩

variable {ctx : Rfc815ctx} {i j v : ℕ} {hole : Rfc815hole}

theorem loadHole_fits (ctx : Rfc815ctx) (i : ℕ) : (ctx.loadHole i).Fits :=
  ⟨word16_lt _ _, word16_lt _ _, word16_lt _ _, word16_lt _ _⟩

theorem view_node (hi : i % 8 = 0) : ctx.view.node i = (ctx.loadHole i).node := if_pos hi

theorem loadHole_storeHole (hf : hole.Fits) : (ctx.storeHole i hole).loadHole i = hole := by
  obtain ⟨h1, h2, h3, h4⟩ := hf
  have hword : ∀ k, 2 * k + 2 ≤ 8 → word16 (ctx.storeHole i hole).pkt (i + 2 * k) =
      [hole.first, hole.last, hole.nextHole, hole.prevHole].getD k 0 % 65536 :=
    fun k hk => word16_memcpy_structMem _ _ hk
  have w0 := hword 0 (by omega)
  have w1 := hword 1 (by omega)
  have w2 := hword 2 (by omega)
  have w3 := hword 3 (by omega)
  simp only [getD_cons_zero, getD_cons_succ, Nat.mul_zero, Nat.add_zero, Nat.mul_one,
    Nat.reduceMul] at w0 w1 w2 w3
  rw [loadHole, w0, w1, w2, w3, Nat.mod_eq_of_lt h1, Nat.mod_eq_of_lt h2, Nat.mod_eq_of_lt h3,
    Nat.mod_eq_of_lt h4]

theorem loadHole_storeHole_of_ne (hi : i % 8 = 0) (hj : j % 8 = 0) (hne : j ≠ i) :
    (ctx.storeHole i hole).loadHole j = ctx.loadHole j := by
  have hword : ∀ k, k + 2 ≤ 8 → word16 (ctx.storeHole i hole).pkt (j + k) =
    word16 ctx.pkt (j + k) := fun k hk => word16_memcpy_of_disjoint (by omega)
  have w0 := hword 0 (by omega)
  rw [Nat.add_zero] at w0
  rw [loadHole, w0, hword 2 (by omega), hword 4 (by omega), hword 6 (by omega), loadHole]

theorem view_storeHole (hi : i % 8 = 0) (hf : hole.Fits) :
    (ctx.storeHole i hole).view = ctx.view.setNode i hole.node := by
  refine DList.ext rfl rfl (funext fun j => ?_)
  by_cases hji : j = i
  · subst hji
    rw [DList.node_setNode_self, view_node hi, loadHole_storeHole hf]
  · rw [DList.node_setNode_of_ne _ hji]
    by_cases hj : j % 8 = 0
    · rw [view_node hj, view_node hj, loadHole_storeHole_of_ne hi hj hji]
    · simp [view, hj]

theorem view_holenonptrSetNext (hi : i = rfc815Null ∨ i % 8 = 0) (hv : v < 65536) :
    (ctx.holenonptrSetNext i v).view = ctx.view.setNext rfc815Null i v := by
  rw [holenonptrSetNext, DList.setNext]
  split_ifs with h
  · rfl
  · have hi := hi.resolve_left h
    obtain ⟨h1, h2, h3, h4⟩ := ctx.loadHole_fits i
    have hf : Rfc815hole.Fits { ctx.loadHole i with nextHole := v } := ⟨h1, h2, hv, h4⟩
    rw [view_storeHole hi hf, view_node hi]
    rfl

theorem view_holenonptrSetPrev (hi : i = rfc815Null ∨ i % 8 = 0) (hv : v < 65536) :
    (ctx.holenonptrSetPrev i v).view = ctx.view.setPrev rfc815Null i v := by
  rw [holenonptrSetPrev, DList.setPrev]
  split_ifs with h
  · rfl
  · have hi := hi.resolve_left h
    obtain ⟨h1, h2, h3, h4⟩ := ctx.loadHole_fits i
    have hf : Rfc815hole.Fits { ctx.loadHole i with prevHole := v } := ⟨h1, h2, h3, hv⟩
    rw [view_storeHole hi hf, view_node hi]
    rfl

end Rfc815ctx

/-- The descriptors of the context are the list of the holes `gs`, and each lies in a slot. -/
structure HoleList (D : ℕ → Prop) (ctx : Rfc815ctx) (gs : List Hole) : Prop where
  list : IsList Gap.first rfc815Null ctx.view gs
  asc : Ascending gs
  slot : ∀ g ∈ gs, Slot D g.first
  lt : ∀ g ∈ gs, g.last < 65536

section Touching

variable {D : ℕ → Prop} {ctx : Rfc815ctx} {i v : ℕ}

theorem touches_storeHole (hi : Slot D i) (hole : Rfc815hole) :
    Touches D FitsPkt ctx.toPktBuf (ctx.storeHole i hole).toPktBuf :=
  Touches.store hi.mem hi.fits _ _

theorem touches_holenonptrSetNext (hi : i = rfc815Null ∨ Slot D i) :
    Touches D FitsPkt ctx.toPktBuf (ctx.holenonptrSetNext i v).toPktBuf := by
  rw [Rfc815ctx.holenonptrSetNext]
  split_ifs with h
  · exact .refl _
  · exact touches_storeHole (hi.resolve_left h) _

theorem touches_holenonptrSetPrev (hi : i = rfc815Null ∨ Slot D i) :
    Touches D FitsPkt ctx.toPktBuf (ctx.holenonptrSetPrev i v).toPktBuf := by
  rw [Rfc815ctx.holenonptrSetPrev]
  split_ifs with h
  · exact .refl _
  · exact touches_storeHole (hi.resolve_left h) _

end Touching

/-! ## The changes of the list -/

/-- The descriptor of the hole `g` between `pre` and `post`. -/
def descriptor (pre : List Hole) (g : Hole) (post : List Hole) : Rfc815hole :=
  ⟨g.first, g.last, headOr Gap.first rfc815Null post, lastOr Gap.first rfc815Null pre⟩

namespace HoleList

variable {D : ℕ → Prop} {ctx : Rfc815ctx} {gs pre post : List Hole} {g : Hole}

theorem nodup (h : HoleList D ctx gs) : (gs.map Gap.first).Nodup := h.asc.nodup_first

theorem null_notMem (h : HoleList D ctx gs) : rfc815Null ∉ gs.map Gap.first := by
  intro hm
  obtain ⟨g, hg, he⟩ := mem_map.mp hm
  have := (h.slot g hg).fits
  simp only [rfc815Null] at he
  omega

theorem headOr_slot (h : HoleList D ctx (pre ++ post)) :
    headOr Gap.first rfc815Null post = rfc815Null ∨ Slot D (headOr Gap.first rfc815Null post) := by
  cases post with
  | nil => exact .inl rfl
  | cons g post => exact .inr (h.slot g (by simp))

theorem lastOr_slot (h : HoleList D ctx (pre ++ post)) :
    lastOr Gap.first rfc815Null pre = rfc815Null ∨ Slot D (lastOr Gap.first rfc815Null pre) := by
  cases pre using reverseRecOn with
  | nil => exact .inl rfl
  | append_singleton pre g =>
    rw [lastOr_concat]
    exact .inr (h.slot g (by simp))

theorem loadHole_eq (h : HoleList D ctx (pre ++ g :: post)) :
    ctx.loadHole g.first = descriptor pre g post := by
  have hnode := h.list.node_eq
  rw [Rfc815ctx.view_node (h.slot g (by simp)).aligned] at hnode
  generalize ctx.loadHole g.first = hole at hnode
  cases hole
  cases g
  simp only [Rfc815hole.node, DNode.mk.injEq, Gap.mk.injEq] at hnode
  obtain ⟨⟨rfl, rfl⟩, rfl, rfl⟩ := hnode
  rfl

theorem headOr_lt (h : HoleList D ctx (pre ++ post)) :
    headOr Gap.first rfc815Null post < 65536 := by
  rcases h.headOr_slot with he | hs
  · rw [he]; decide
  · have := hs.fits
    omega

theorem lastOr_lt (h : HoleList D ctx (pre ++ post)) : lastOr Gap.first rfc815Null pre < 65536 := by
  rcases h.lastOr_slot with he | hs
  · rw [he]; decide
  · have := hs.fits
    omega

theorem slot_or {i : ℕ} (h : i = rfc815Null ∨ Slot D i) : i = rfc815Null ∨ i % 8 = 0 :=
  h.imp_right Slot.aligned

theorem of_list {ctx' : Rfc815ctx} (h : HoleList D ctx (pre ++ g :: post)) (mid : List Hole)
    (hlist : IsList Gap.first rfc815Null ctx'.view (pre ++ (mid ++ post))) (hmid : Ascending mid)
    (hin : ∀ x ∈ mid, g.first ≤ x.first ∧ x.last ≤ g.last) (hslot : ∀ x ∈ mid, Slot D x.first) :
    HoleList D ctx' (pre ++ (mid ++ post)) := by
  have hg := h.lt g (by simp)
  refine ⟨hlist, h.asc.replace hmid hin, fun x hx => ?_, fun x hx => ?_⟩
  · rcases mem_append.mp hx with hx | hx
    · exact h.slot x (by simp [hx])
    · rcases mem_append.mp hx with hx | hx
      · exact hslot x hx
      · exact h.slot x (by simp [hx])
  · rcases mem_append.mp hx with hx | hx
    · exact h.lt x (by simp [hx])
    · rcases mem_append.mp hx with hx | hx
      · exact lt_of_le_of_lt (hin x hx).2 hg
      · exact h.lt x (by simp [hx])

theorem delete (h : HoleList D ctx (pre ++ g :: post)) :
    HoleList D (ctx.deleteHole (descriptor pre g post)) (pre ++ post) ∧
      Touches D FitsPkt ctx.toPktBuf (ctx.deleteHole (descriptor pre g post)).toPktBuf := by
  have hpost : HoleList D ctx (pre ++ [g] ++ post) := by simpa using h
  have hn := hpost.headOr_slot
  have hp := h.lastOr_slot
  rw [Rfc815ctx.deleteHole]
  refine ⟨h.of_list [] ?_ ascending_nil (by simp) (by simp),
    (touches_holenonptrSetNext hp).trans (touches_holenonptrSetPrev hn)⟩
  simp only [descriptor]
  rw [Rfc815ctx.view_holenonptrSetPrev (slot_or hn) h.lastOr_lt,
    Rfc815ctx.view_holenonptrSetNext (slot_or hp) hpost.headOr_lt]
  exact h.list.delete h.nodup h.null_notMem

theorem shrink {v : ℕ} (h : HoleList D ctx (pre ++ g :: post)) (h1 : g.first ≤ v)
    (h2 : v ≤ g.last) :
    HoleList D (ctx.storeHole g.first { descriptor pre g post with last := v })
        (pre ++ ⟨g.first, v⟩ :: post) ∧
      Touches D FitsPkt ctx.toPktBuf
        (ctx.storeHole g.first { descriptor pre g post with last := v }).toPktBuf := by
  have hpost : HoleList D ctx (pre ++ [g] ++ post) := by simpa using h
  have hg := h.slot g (by simp)
  have hlt := h.lt g (by simp)
  refine ⟨h.of_list [⟨g.first, v⟩] ?_ (by simpa using h1) (by simpa using h2)
    (by simpa using hg), touches_storeHole hg _⟩
  rw [Rfc815ctx.view_storeHole hg.aligned
    ⟨by simp only [descriptor]; omega, by simp only; omega, hpost.headOr_lt, h.lastOr_lt⟩]
  exact h.list.replace h.nodup rfl

theorem fresh {i : ℕ} (h : HoleList D ctx (pre ++ g :: post)) (h1 : g.first < i) (h2 : i ≤ g.last) :
    i ∉ (pre ++ g :: post).map Gap.first := by
  obtain ⟨hpre, hg, hlt⟩ := (ascending_append _ _).mp h.asc
  obtain ⟨-, hgt, -⟩ := (ascending_cons _ _).mp hg
  intro hm
  obtain ⟨x, hx, rfl⟩ := mem_map.mp hm
  rcases mem_append.mp hx with hx | hx
  · have := hpre.1 x hx
    have := hlt x hx g (by simp)
    omega
  · rcases mem_cons.mp hx with rfl | hx
    · omega
    · have := hgt x hx
      omega

theorem move {b : ℕ} (h : HoleList D ctx (pre ++ g :: post)) (h1 : g.first < b + 1)
    (h2 : b + 1 ≤ g.last) (hs : Slot D (b + 1)) :
    HoleList D (moveHole ctx (descriptor pre g post) b) (pre ++ ⟨b + 1, g.last⟩ :: post) ∧
      Touches D FitsPkt ctx.toPktBuf (moveHole ctx (descriptor pre g post) b).toPktBuf := by
  have hpost : HoleList D ctx (pre ++ [g] ++ post) := by simpa using h
  have hn := hpost.headOr_slot
  have hp := h.lastOr_slot
  have hlt := h.lt g (by simp)
  have hfresh : b + 1 ∉ (pre ++ post).map Gap.first := fun hm =>
    h.fresh h1 h2 (map_subset _ (by simp) hm)
  rw [moveHole]
  refine ⟨h.of_list [⟨b + 1, g.last⟩] ?_ (by simpa using h2) (by simpa using h1.le)
    (by simpa using hs), (touches_holenonptrSetNext hp).trans
    ((touches_holenonptrSetPrev hn).trans (touches_storeHole hs _))⟩
  simp only [descriptor]
  rw [Rfc815ctx.view_storeHole hs.aligned
      ⟨by simp only; omega, hlt, hpost.headOr_lt, h.lastOr_lt⟩,
    Rfc815ctx.view_holenonptrSetPrev (slot_or hn) (by omega),
    Rfc815ctx.view_holenonptrSetNext (slot_or hp) (by omega)]
  exact h.list.move (y := ⟨b + 1, g.last⟩) h.nodup h.null_notMem hfresh

theorem split {a b : ℕ} (h : HoleList D ctx (pre ++ g :: post)) (h1 : g.first < a) (hab : a ≤ b + 1)
    (h2 : b + 1 ≤ g.last) (hs : Slot D (b + 1)) :
    HoleList D (splitHoleList ctx g.first (descriptor pre g post) a b)
        (pre ++ ⟨g.first, a - 1⟩ :: ⟨b + 1, g.last⟩ :: post) ∧
      Touches D FitsPkt ctx.toPktBuf
        (splitHoleList ctx g.first (descriptor pre g post) a b).toPktBuf := by
  have hpost : HoleList D ctx (pre ++ [g] ++ post) := by simpa using h
  have hn := hpost.headOr_slot
  have hg := h.slot g (by simp)
  have hlt := h.lt g (by simp)
  have hfresh : b + 1 ∉ (pre ++ g :: post).map Gap.first := h.fresh (by omega) h2
  have hmid : Ascending [(⟨g.first, a - 1⟩ : Hole), ⟨b + 1, g.last⟩] := by
    simp only [ascending_cons, mem_singleton, forall_eq, not_mem_nil, false_implies,
      implies_true, ascending_nil, and_true]
    omega
  rw [splitHoleList]
  refine ⟨h.of_list [⟨g.first, a - 1⟩, ⟨b + 1, g.last⟩] ?_ hmid (by simp; omega)
    (by simpa using ⟨hg, hs⟩), (touches_holenonptrSetPrev hn).trans
    ((touches_storeHole hg _).trans (touches_storeHole hs _))⟩
  simp only [descriptor]
  rw [Rfc815ctx.view_storeHole hs.aligned
      ⟨by simp only; omega, hlt, hpost.headOr_lt, by simp only; omega⟩,
    Rfc815ctx.view_storeHole hg.aligned
      ⟨by simp only; omega, by simp only; omega, by simp only; omega, h.lastOr_lt⟩,
    Rfc815ctx.view_holenonptrSetPrev (slot_or hn) (by omega)]
  exact h.list.split (y := ⟨b + 1, g.last⟩) h.nodup h.null_notMem
    (show Gap.first (⟨g.first, a - 1⟩ : Hole) = g.first from rfl) hfresh

end HoleList

/-! ## The two loops -/

variable {D : ℕ → Prop} {a : ℕ}

/-- The loop refines `clipHoles` and only writes descriptors of the holes there are. -/
theorem clipHoleList_spec {rest : List Hole} :
    ∀ {fuel : ℕ} {ctx : Rfc815ctx} {pre : List Hole}, HoleList D ctx (pre ++ rest) →
      rest.length < fuel →
      ∃ ctx', clipHoleList fuel ctx (headOr Gap.first rfc815Null rest) = some ctx' ∧
        HoleList D ctx' (pre ++ clipHoles ctx.mostRestrictingLast rest) ∧
        Touches D FitsPkt ctx.toPktBuf ctx'.toPktBuf := by
  induction rest with
  | nil =>
    intro fuel ctx pre h hfuel
    obtain ⟨fuel, rfl⟩ := Nat.exists_eq_add_of_lt hfuel
    exact ⟨ctx, by simp [clipHoleList], h, .refl _⟩
  | cons g rest ih =>
    intro fuel ctx pre h hfuel
    obtain ⟨fuel, rfl⟩ : ∃ m, fuel = m + 1 := ⟨fuel - 1, by omega⟩
    have hfuel : rest.length < fuel := by simpa using hfuel
    have hnull : g.first ≠ rfc815Null := fun he => h.null_notMem (by simp [← he])
    rw [headOr_cons, clipHoleList, if_neg hnull, clipHoles]
    simp only [h.loadHole_eq, descriptor]
    have hg := h.asc.1 g (by simp)
    split_ifs with h1 h2
    · obtain ⟨hdel, ht⟩ := h.delete
      obtain ⟨ctx', hctx', h', ht'⟩ := ih hdel hfuel
      rw [ht.last] at h'
      exact ⟨ctx', hctx', h', ht.trans ht'⟩
    · obtain ⟨hsh, ht⟩ := h.shrink (v := ctx.mostRestrictingLast) (by omega) h2.le
      rw [← singleton_append, ← append_assoc] at hsh
      obtain ⟨ctx', hctx', h', ht'⟩ := ih hsh hfuel
      rw [ht.last, append_assoc] at h'
      exact ⟨ctx', hctx', h', ht.trans ht'⟩
    · rw [← singleton_append, ← append_assoc] at h
      obtain ⟨ctx', hctx', h', ht'⟩ := ih h hfuel
      rw [append_assoc] at h'
      exact ⟨ctx', hctx', h', ht'⟩

/-- The second loop is `punchHoles` on the descriptors. If it did not set `mod`, it changed nothing
and there was nothing to take out. -/
theorem punchHoleList_spec {b : ℕ} (hab : a ≤ b + 1) {rest : List Hole} :
    ∀ {fuel : ℕ} {ctx : Rfc815ctx} {pre : List Hole} (mod : Bool), HoleList D ctx (pre ++ rest) →
      rest.length < fuel → (InGaps rest (b + 1) → Slot D (b + 1)) →
      ∃ ctx' mod', punchHoleList a b fuel ctx (headOr Gap.first rfc815Null rest) mod =
          some (ctx', mod') ∧
        HoleList D ctx' (pre ++ punchHoles a b rest) ∧
        Touches D FitsPkt ctx.toPktBuf ctx'.toPktBuf ∧
        (mod' = false → mod = false ∧ ∀ i, InGaps rest i → ¬(a ≤ i ∧ i ≤ b)) := by
  induction rest with
  | nil =>
    intro fuel ctx pre mod h hfuel _
    obtain ⟨fuel, rfl⟩ := Nat.exists_eq_add_of_lt hfuel
    exact ⟨ctx, mod, by simp [punchHoleList], h, .refl _, fun hm => ⟨hm, by simp⟩⟩
  | cons g rest ih =>
    intro fuel ctx pre mod h hfuel hslot
    obtain ⟨fuel, rfl⟩ : ∃ m, fuel = m + 1 := ⟨fuel - 1, by omega⟩
    have hfuel : rest.length < fuel := by simpa using hfuel
    have hnull : g.first ≠ rfc815Null := fun he => h.null_notMem (by simp [← he])
    have hslot' : InGaps rest (b + 1) → Slot D (b + 1) := fun hi => hslot (by simp [hi])
    have hg := h.asc.1 g (by simp)
    have htail : ∀ i, InGaps rest i → g.last < i := fun i hi =>
      ((ascending_append _ _).mp h.asc).2.1.lt_of_inGaps_tail hi
    rw [headOr_cons, punchHoleList, if_neg hnull, punchHoles]
    simp only [h.loadHole_eq, descriptor]
    split_ifs with h1 h2 h3 h4 h5 h6 h7
    · obtain ⟨hdel, ht⟩ := h.delete
      exact ⟨_, true, rfl, hdel, ht, by simp⟩
    · obtain ⟨hsh, ht⟩ := h.shrink (v := a - 1) (by omega) (by omega)
      exact ⟨_, true, rfl, hsh, ht, by simp⟩
    · obtain ⟨hmv, ht⟩ := h.move h5 (by omega) (hslot (by simp [Gap.Has]; omega))
      exact ⟨_, true, rfl, hmv, ht, by simp⟩
    · refine ⟨ctx, mod, rfl, h, .refl _, fun hm => ⟨hm, fun i hi => ?_⟩⟩
      rcases (inGaps_cons _ _ _).mp hi with hi | hi
      · rw [Gap.Has] at hi; omega
      · have := htail i hi; omega
    · obtain ⟨hsp, ht⟩ := h.split (by omega) hab (by omega) (hslot (by simp [Gap.Has]; omega))
      exact ⟨_, true, rfl, hsp, ht, by simp⟩
    · obtain ⟨hdel, ht⟩ := h.delete
      obtain ⟨ctx', mod', hctx', h', ht', hmod⟩ := ih true hdel hfuel hslot'
      exact ⟨ctx', mod', hctx', h', ht.trans ht', fun hm => absurd (hmod hm).1 (by simp)⟩
    · obtain ⟨hsh, ht⟩ := h.shrink (v := a - 1) (by omega) (by omega)
      rw [← singleton_append, ← append_assoc] at hsh
      obtain ⟨ctx', mod', hctx', h', ht', hmod⟩ := ih true hsh hfuel hslot'
      rw [append_assoc] at h'
      exact ⟨ctx', mod', hctx', h', ht.trans ht', fun hm => absurd (hmod hm).1 (by simp)⟩
    · rw [← singleton_append, ← append_assoc] at h
      obtain ⟨ctx', mod', hctx', h', ht', hmod⟩ := ih mod h hfuel hslot'
      rw [append_assoc] at h'
      refine ⟨ctx', mod', hctx', h', ht', fun hm => ⟨(hmod hm).1, fun i hi => ?_⟩⟩
      rcases (inGaps_cons _ _ _).mp hi with hi | hi
      · rw [Gap.Has] at hi; omega
      · exact (hmod hm).2 i hi

/-! ## One packet -/

theorem HoleList.length_lt {ctx : Rfc815ctx} {gs : List Hole} (h : HoleList D ctx gs) :
    gs.length < holeBound := by
  have hsub : gs.map Gap.first ⊆ range 65536 := by
    intro i hi
    obtain ⟨g, hg, rfl⟩ := mem_map.mp hi
    have := (h.slot g hg).fits
    exact mem_range.mpr (by omega)
  have hlen := (subperm_of_subset h.nodup hsub).length_le
  rw [length_map, length_range] at hlen
  exact Nat.lt_succ_of_le hlen

theorem HoleList.firstHole_eq {ctx : Rfc815ctx} {gs : List Hole} (h : HoleList D ctx gs) :
    ctx.firstHole = headOr Gap.first rfc815Null gs := h.list.first

theorem HoleList.store {ctx : Rfc815ctx} {gs : List Hole} {n : ℕ} (h : HoleList D ctx gs)
    (hdisj : ∀ g ∈ gs, g.first + 8 ≤ a ∨ a + n ≤ g.first) (src : Mem) (s : ℕ) :
    HoleList D { ctx with toPktBuf := ctx.store a src s n } gs := by
  refine ⟨h.list.congr rfl rfl fun i hi => ?_, h.asc, h.slot, h.lt⟩
  obtain ⟨g, hg, rfl⟩ := mem_map.mp hi
  have hal := (h.slot g hg).aligned
  have hd := hdisj g hg
  have hword : ∀ k, k + 2 ≤ 8 → word16 (ctx.store a src s n).pkt (g.first + k) =
      word16 ctx.pkt (g.first + k) := fun k hk => word16_memcpy_of_disjoint (by omega)
  have w0 := hword 0 (by omega)
  rw [Nat.add_zero] at w0
  rw [Rfc815ctx.view_node hal, Rfc815ctx.view_node hal, Rfc815ctx.loadHole, w0,
    hword 2 (by omega), hword 4 (by omega), hword 6 (by omega), Rfc815ctx.loadHole]

/-- Taking out the bytes `a … b` and copying them from the packet. Outside of `D` everything else
stays as it was. -/
theorem rfc815AddData_spec {ctx : Rfc815ctx} {gs : List Hole} {b : ℕ} (pkt : Packet)
    (h : HoleList D ctx gs) (ha : a % 8 = 0) (hab : a ≤ b + 1) (hb : b + 1 ≤ 65535)
    (hD : ∀ i, a ≤ i → i ≤ b → D i → InGaps gs i) (hslot : InGaps gs (b + 1) → Slot D (b + 1)) :
    ∃ ctx', rfc815AddData ctx pkt a b = some ctx' ∧ HoleList D ctx' (punchHoles a b gs) ∧
      ctx'.mostRestrictingLast = ctx.mostRestrictingLast ∧ ctx'.hdrLen = ctx.hdrLen ∧
      ctx'.pktHeader = ctx.pktHeader ∧ (∀ s ∈ ctx'.stores, s ∈ ctx.stores ∨ FitsPkt s) ∧
      ∀ i, ¬D i ∨ a ≤ i ∧ i ≤ b →
        (a ≤ i ∧ i ≤ b ∧ ctx'.pkt i = pkt.data (ipPayload pkt.data ipOff + (i - a))) ∨
        ¬D i ∧ ctx'.pkt i = ctx.pkt i := by
  have h0 : HoleList D ctx ([] ++ gs) := h
  obtain ⟨ctx1, mod, hpunch, h1, ht, hmod⟩ := punchHoleList_spec hab false h0 h.length_lt hslot
  rw [← h.firstHole_eq] at hpunch
  rw [nil_append] at h1
  simp only [rfc815AddData, hpunch, bind_eq_bind, bind_some]
  cases mod with
  | false =>
    refine ⟨ctx1, rfl, h1, ht.last, ht.hdrLen, ht.pktHeader, ht.stores, fun i hi => .inr ?_⟩
    -- the bytes of the fragment had all arrived
    have hno : ¬D i := hi.elim id fun hi hd => (hmod rfl).2 i (hD i hi.1 hi.2 hd) hi
    exact ⟨hno, ht.pkt i hno⟩
  | true =>
    refine ⟨_, rfl, h1.store (fun g hg => ?_) _ _, ht.last, ht.hdrLen, ht.pktHeader,
      fun s hs => ?_, fun i hi => ?_⟩
    · have hal := (h1.slot g hg).aligned
      have hout := ((mem_punchHoles hab h.asc g.first).mp ⟨g, hg, le_rfl, h1.asc.1 g hg⟩).2
      omega
    · rcases mem_cons.mp hs with rfl | hs
      · exact .inr (by simp only [FitsPkt, pktSize]; omega)
      · exact ht.stores s hs
    · by_cases hin : a ≤ i ∧ i ≤ b
      · exact .inl ⟨hin.1, hin.2, memcpy_of_mem (by omega) (by omega)⟩
      · have hno : ¬D i := hi.resolve_right hin
        exact .inr ⟨hno, (memcpy_of_notMem (by omega)).trans (ht.pkt i hno)⟩

/-- The state of the engine after the accepted fragments `fs`. -/
structure Rfc815Inv (fs : List Frag) (ctx : Rfc815ctx) (gs : List Hole) : Prop where
  last : ctx.mostRestrictingLast = mostRestrictingLast fs
  list : HoleList (BlockMissing fs) ctx gs
  points : ∀ i, InGaps gs i ↔ BlockMissing fs i
  stores : ∀ s ∈ ctx.stores, FitsPkt s

namespace Rfc815Inv

variable {fs : List Frag} {ctx : Rfc815ctx} {gs : List Hole}

theorem of_points {D : ℕ → Prop} (hlast : ctx.mostRestrictingLast = mostRestrictingLast fs)
    (h : HoleList D ctx gs) (hpoints : ∀ i, InGaps gs i ↔ BlockMissing fs i)
    (hstores : ∀ s ∈ ctx.stores, FitsPkt s) : Rfc815Inv fs ctx gs := by
  refine ⟨hlast, ⟨h.list, h.asc, fun g hg => ?_, h.lt⟩, hpoints, hstores⟩
  have hs := h.slot g hg
  have hal := hs.aligned
  refine ⟨hal, hs.fits, fun j h1 h2 => ?_⟩
  have hfirst : BlockMissing fs g.first := (hpoints _).mp ⟨g, hg, le_rfl, h.asc.1 g hg⟩
  exact hfirst.block (by omega)

theorem slot {i : ℕ} (hi : BlockMissing fs i) (hal : i % 8 = 0) (hfits : i + 8 ≤ 65535) :
    Slot (BlockMissing fs) i :=
  ⟨hal, hfits, fun j h1 h2 => hi.block (by omega)⟩

end Rfc815Inv

theorem HoleList.congr {ctx ctx' : Rfc815ctx} {gs : List Hole} (h : HoleList D ctx gs)
    (hpkt : ctx'.pkt = ctx.pkt) (hf : ctx'.firstHole = ctx.firstHole)
    (hl : ctx'.lastHole = ctx.lastHole) : HoleList D ctx' gs := by
  refine ⟨h.list.congr hf hl fun i _ => ?_, h.asc, h.slot, h.lt⟩
  simp only [Rfc815ctx.view, Rfc815ctx.loadHole, hpkt]

variable {fs : List Frag}

theorem rfc815_lower_spec {ctx : Rfc815ctx} {gs : List Hole} {f : Frag} (pkt : Packet)
    (h : Rfc815Inv fs ctx gs) (hf : f.more = false ∧ mostRestrictingLast fs > f.last)
    (hfit : f.last ≤ 65534) :
    ∃ ctx' gs', (clipHoleList holeBound { ctx with mostRestrictingLast := f.last } ctx.firstHole
        >>= fun ctx => rfc815AddData ctx pkt f.first f.last) = some ctx' ∧
      Rfc815Inv (fs ++ [f]) ctx' gs' ∧ ctx'.hdrLen = ctx.hdrLen ∧
      ctx'.pktHeader = ctx.pktHeader ∧
      ∀ i, ¬BlockMissing fs i ∨ f.Has i →
        (f.Has i ∧ ctx'.pkt i = pkt.data (ipPayload pkt.data ipOff + (i - f.first))) ∨
        ¬BlockMissing fs i ∧ ctx'.pkt i = ctx.pkt i := by
  have h0 : HoleList (BlockMissing fs) { ctx with mostRestrictingLast := f.last } ([] ++ gs) :=
    h.list.congr rfl rfl rfl
  obtain ⟨ctx1, hclip, h₁, ht⟩ := clipHoleList_spec h0 h0.length_lt
  rw [nil_append] at h₁
  have hmem : ∀ i, InGaps (clipHoles f.last gs) i ↔ BlockMissing fs i ∧ i ≤ f.last := fun i => by
    rw [mem_clipHoles, h.points]
  obtain ⟨ctx2, hadd, h₂, hlast, hhl, hhdr, hstores, hdata⟩ := rfc815AddData_spec pkt h₁ f.aligned
    (Nat.le_succ_of_le f.le) (by omega) (fun i _ hi hd => (hmem i).mpr ⟨hd, hi⟩)
    (fun hi => by have := (hmem _).mp hi; omega)
  refine ⟨ctx2, punchHoles f.first f.last (clipHoles f.last gs), ?_, ?_,
    hhl.trans ht.hdrLen, hhdr.trans ht.pktHeader, fun i hi => ?_⟩
  · rw [← h.list.firstHole_eq] at hclip
    simp only [hclip, bind_eq_bind, bind_some]
    exact hadd
  · refine Rfc815Inv.of_points ?_ h₂ (fun i => ?_) fun s hs => ?_
    · rw [hlast, ht.last, mostRestrictingLast_append_singleton, if_pos hf]
    · rw [mem_punchHoles (Nat.le_succ_of_le f.le) h₁.asc, hmem, blockMissing_append_lower hf]
    · exact (hstores s hs).elim (fun hs => (ht.stores s hs).elim (h.stores s) id) id
  · rcases hdata i hi with ⟨h1, h2, h3⟩ | ⟨h1, h2⟩
    · exact .inl ⟨⟨h1, h2⟩, h3⟩
    · exact .inr ⟨h1, h2.trans (ht.pkt i h1)⟩

theorem rfc815_round_spec {ctx : Rfc815ctx} {gs : List Hole} {f : Frag} (pkt : Packet)
    (h : Rfc815Inv fs ctx gs) (hf : ¬(f.more = false ∧ mostRestrictingLast fs > f.last))
    (h7 : 7 ≤ f.last) (hfit : InBuffer (mostRestrictingLast fs) f) :
    ∃ ctx' gs', rfc815AddData ctx pkt f.first (roundLast f.last) = some ctx' ∧
      Rfc815Inv (fs ++ [f]) ctx' gs' ∧ ctx'.hdrLen = ctx.hdrLen ∧
      ctx'.pktHeader = ctx.pktHeader ∧
      ∀ i, ¬BlockMissing fs i ∨ f.first ≤ i ∧ i ≤ roundLast f.last →
        (f.Has i ∧ ctx'.pkt i = pkt.data (ipPayload pkt.data ipOff + (i - f.first))) ∨
        ¬BlockMissing fs i ∧ ctx'.pkt i = ctx.pkt i := by
  have hal := f.aligned
  have hle := f.le
  have hround : roundLast f.last + 1 = (f.last + 1) / 8 * 8 := by rw [roundLast]; omega
  obtain ⟨hfit1, hfit2⟩ := hfit
  have hmrl := mostRestrictingLast_le fs
  have hslot : InGaps gs (roundLast f.last + 1) →
      Slot (BlockMissing fs) (roundLast f.last + 1) := by
    intro hi
    have hb := (h.points _).mp hi
    have hblock := hb.block_le
    refine Rfc815Inv.slot hb (by omega) ?_
    rcases hfit2 with h2 | h2 | h2
    · omega
    · have : mostRestrictingLast fs ≤ f.last := by
        by_contra hc
        exact hf ⟨h2, by omega⟩
      omega
    · omega
  obtain ⟨ctx2, hadd, h₂, hlast, hhl, hhdr, hstores, hdata⟩ := rfc815AddData_spec pkt h.list hal
    (show f.first ≤ roundLast f.last + 1 by omega) (by omega)
    (fun i _ _ hd => (h.points i).mpr hd) hslot
  refine ⟨ctx2, punchHoles f.first (roundLast f.last) gs, hadd, ?_, hhl, hhdr, fun i hi => ?_⟩
  · refine Rfc815Inv.of_points ?_ h₂ (fun i => ?_) fun s hs => (hstores s hs).elim (h.stores s) id
    · rw [hlast, h.last, mostRestrictingLast_append_singleton, if_neg hf]
    · rw [mem_punchHoles (by omega) h.list.asc, h.points, blockMissing_append_round hf, ← hround,
        Nat.lt_succ_iff]
  · rcases hdata i hi with ⟨h1, h2, h3⟩ | h
    · exact .inl ⟨⟨h1, by omega⟩, h3⟩
    · exact .inr h

theorem Rfc815Inv.takeHeader {ctx : Rfc815ctx} {gs : List Hole} (h : Rfc815Inv fs ctx gs)
    (pkt : Packet) : Rfc815Inv fs { ctx with toPktBuf := ctx.takeHeader pkt } gs :=
  ⟨by simpa using h.last, h.list.congr (by simp) rfl rfl, h.points, by simpa using h.stores⟩

/-- One packet keeps `Rfc815Inv` and makes a `BufStep`. -/
theorem rfc815ctxAdd_inv {ctx : Rfc815ctx} {gs : List Hole} (h : Rfc815Inv fs ctx gs) (pkt : Packet)
    (hfit : ∀ f, pkt.accept = some f → InBuffer (mostRestrictingLast fs) f) :
    ∃ ctx' gs', rfc815ctxAdd ctx pkt = some ctx' ∧
      Rfc815Inv (fs ++ pkt.accept.toList) ctx' gs' ∧
      BufStep fs pkt ctx.toPktBuf ctx'.toPktBuf := by
  cases hbad : pkt.badLength with
  | true =>
    have hacc : pkt.accept = none := (Packet.accept_eq_none_iff pkt).mpr (.inl hbad)
    exact ⟨ctx, gs, by simp [rfc815ctxAdd, hbad], by simpa [hacc] using h,
      .of_badLength h.last hbad⟩
  | false =>
    have h0 := h.takeHeader pkt
    rw [rfc815ctxAdd, hbad, if_neg (by simp)]
    cases hacc : pkt.accept with
    | none =>
      have hlast : pkt.dataLast > 65535 :=
        ((Packet.accept_eq_none_iff pkt).mp hacc).resolve_left (by simp [hbad])
      exact ⟨_, gs, if_pos hlast, by simpa using h0, .of_rejected h.last hbad hacc⟩
    | some f =>
      obtain ⟨-, hle, h1, h2, h3⟩ := (Packet.accept_eq_some_iff pkt).mp hacc
      have hb := hfit f hacc
      simp only [← h1, ← h2, ← h3, PktBuf.takeHeader_mostRestrictingLast, h.last, toList_some]
      rw [if_neg (by have := f.lt; omega)]
      split_ifs with hf h7
      · obtain ⟨ctx', gs', hctx', h', hhl, hhdr, hdata⟩ := rfc815_lower_spec pkt h0 hf hb.1
        refine ⟨ctx', gs', hctx', h', .of_accept hbad hacc h.last h'.last hhl hhdr
          fun i hi hno => ?_⟩
        have := hdata i ?_
        · simpa using this
        · by_cases hhas : f.Has i
          · exact .inr hhas
          · refine .inl fun hm => hno ((blockMissing_append_lower hf i).mpr ⟨⟨hm, ?_⟩, hhas⟩)
            rwa [mostRestrictingLast_append_singleton, if_pos hf] at hi
      · -- a fragment inside the first block is not taken in
        have hpoints : ∀ i, BlockMissing (fs ++ [f]) i ↔ BlockMissing fs i := fun i => by
          rw [blockMissing_append_round hf]
          exact and_iff_left (by omega)
        have hl : mostRestrictingLast (fs ++ [f]) = mostRestrictingLast fs := by
          rw [mostRestrictingLast_append_singleton, if_neg hf]
        refine ⟨_, gs, rfl, .of_points (h0.last.trans hl.symm) h0.list
          (fun i => (h.points i).trans (hpoints i).symm) h0.stores, .of_accept hbad hacc h.last
          (h0.last.trans hl.symm) rfl rfl fun i _ hno => .inr ⟨fun hm => hno ((hpoints i).mpr hm),
            ?_⟩⟩
        simp
      · obtain ⟨ctx', gs', hctx', h', hhl, hhdr, hdata⟩ :=
          rfc815_round_spec pkt h0 hf (by omega) hb
        refine ⟨ctx', gs', hctx', h', .of_accept hbad hacc h.last h'.last hhl hhdr
          fun i _ hno => ?_⟩
        have := hdata i ?_
        · simpa using this
        · by_cases hin : f.first ≤ i ∧ i ≤ roundLast f.last
          · exact .inr hin
          · refine .inl fun hm => hno ((blockMissing_append_round hf i).mpr ⟨hm, fun hc => hin ?_⟩)
            rw [roundLast]
            omega

/-! ## Whole runs -/

/-- `rfc815ctx_init_fast` and `rfc815ctx_add` for a sequence of packets, over a context with
arbitrary contents. -/
def rfc815ctxRun (ctx : Rfc815ctx) (pkts : List Packet) : Option Rfc815ctx :=
  pkts.foldlM rfc815ctxAdd (rfc815ctxInitFast ctx)

theorem rfc815ctxInitFast_inv (ctx : Rfc815ctx) :
    Rfc815Inv [] (rfc815ctxInitFast ctx) [⟨0, 65535⟩] := by
  have hmiss : ∀ i, BlockMissing [] i ↔ i ≤ 65535 := fun i => by simp [BlockMissing]
  refine ⟨rfl, ⟨?_, by simp, fun g hg => ?_, by simp⟩, fun i => ?_, by
    simp [rfc815ctxInitFast, Rfc815ctx.storeHole, PktBuf.store, FitsPkt, pktSize]⟩
  · rw [rfc815ctxInitFast, Rfc815ctx.view_storeHole (by decide)
      ⟨by decide, by decide, by decide, by decide⟩]
    exact ⟨rfl, rfl, ⟨DList.node_setNode_self .., trivial⟩, trivial⟩
  · rw [mem_singleton] at hg
    subst hg
    exact ⟨rfl, by simp, fun j _ hj => (hmiss j).mpr (by simp at hj; omega)⟩
  · rw [hmiss]
    simp [Gap.Has]

theorem rfc815ctxRun_append (ctx : Rfc815ctx) (pkts : List Packet) (pkt : Packet) :
    rfc815ctxRun ctx (pkts ++ [pkt]) = (rfc815ctxRun ctx pkts).bind fun c =>
      rfc815ctxAdd c pkt := by
  simp [rfc815ctxRun, foldlM_append]

/-- Packets that stay in the buffer. If they are all parts of one payload, so are the bytes that
have arrived. -/
theorem rfc815ctxRun_bufInv (ctx : Rfc815ctx) {pkts : List Packet} (hfit : FitsBuffer pkts) :
    ∃ ctx' gs, rfc815ctxRun ctx pkts = some ctx' ∧
      Rfc815Inv (pkts.filterMap Packet.accept) ctx' gs ∧
      ∀ src : ℕ → UInt8, (∀ pkt ∈ pkts, ∀ f, pkt.accept = some f → ∀ i, f.Has i →
        pkt.data (ipPayload pkt.data ipOff + (i - f.first)) = src i) →
        BufInv src pkts ctx'.toPktBuf := by
  induction pkts using reverseRecOn with
  | nil => exact ⟨_, _, rfl, rfc815ctxInitFast_inv ctx, fun _ _ => .init rfl rfl⟩
  | append_singleton pkts pkt ih =>
    obtain ⟨hfit', hpkt⟩ := fitsBuffer_append_singleton hfit
    obtain ⟨ctx1, gs1, hrun, h1, hb1⟩ := ih hfit'
    obtain ⟨ctx2, gs2, hadd, h2, hstep⟩ := rfc815ctxAdd_inv h1 pkt hpkt
    refine ⟨ctx2, gs2, by rw [rfc815ctxRun_append, hrun]; exact hadd, ?_, fun src hsrc =>
      (hb1 src fun p hp => hsrc p (by simp [hp])).step hstep (hsrc pkt (by simp))⟩
    cases hacc : pkt.accept <;> simpa [hacc] using h2

theorem rfc815ctxRun_inv (ctx : Rfc815ctx) {pkts : List Packet} (hfit : FitsBuffer pkts) :
    ∃ ctx' gs, rfc815ctxRun ctx pkts = some ctx' ∧
      Rfc815Inv (pkts.filterMap Packet.accept) ctx' gs := by
  obtain ⟨ctx', gs, hrun, h, -⟩ := rfc815ctxRun_bufInv ctx hfit
  exact ⟨ctx', gs, hrun, h⟩

theorem Rfc815Inv.complete_iff {ctx : Rfc815ctx} {gs : List Hole} (h : Rfc815Inv fs ctx gs) :
    (ctx.firstHole = rfc815Null ↔ gs = []) ∧ (ctx.lastHole = rfc815Null ↔ gs = []) ∧
      (gs = [] ↔ ∀ i ≤ mostRestrictingLast fs, Covered fs i) := by
  have hnull := h.list.null_notMem
  refine ⟨?_, ?_, ?_⟩
  · rw [h.list.firstHole_eq]
    cases gs with
    | nil => simp
    | cons g gs =>
      refine iff_of_false (fun he => hnull ?_) (by simp)
      rw [← he]
      simp
  · rw [show ctx.lastHole = lastOr Gap.first rfc815Null gs from h.list.list.last]
    cases gs using reverseRecOn with
    | nil => simp
    | append_singleton gs g =>
      refine iff_of_false (fun he => hnull ?_) (by simp)
      rw [lastOr_concat] at he
      rw [← he]
      simp
  · rw [forall_covered_iff, h.list.asc.eq_nil_iff]
    exact forall_congr' fun i => not_congr (h.points i)

theorem Rfc815Inv.rfc815ctxComplete_eq {ctx : Rfc815ctx} {gs : List Hole}
    (h : Rfc815Inv fs ctx gs) :
    ∃ b, rfc815ctxComplete ctx = some b ∧
      (b = true ↔ ∀ i ≤ mostRestrictingLast fs, Covered fs i) := by
  obtain ⟨hf, hl, hcov⟩ := h.complete_iff
  refine ⟨decide (ctx.firstHole = rfc815Null), ?_, by rw [decide_eq_true_iff, hf, hcov]⟩
  rw [rfc815ctxComplete, if_neg (by rw [ne_eq, hf, hl]; tauto),
    if_neg (by rw [ne_eq, hf, hl]; tauto)]

/-- After every sequence of packets whose accepted fragments end at byte 65514 or earlier: the
descriptors are a doubly linked list of ascending, nonempty and disjoint holes, each at the first
byte of its hole, `first_hole` and `last_hole` are null together, and `rfc815ctx_complete` returns
whether every byte `0 … most_restricting_last` is covered. -/
theorem rfc815_list_is_missing_blocks (ctx : Rfc815ctx) (pkts : List Packet)
    (hend : ∀ f ∈ pkts.filterMap Packet.accept, f.last ≤ 65514) :
    ∃ ctx' gs, rfc815ctxRun ctx pkts = some ctx' ∧
      (ctx'.firstHole = headOr Gap.first rfc815Null gs ∧
        ctx'.lastHole = lastOr Gap.first rfc815Null gs ∧
        ∀ pre g post, gs = pre ++ g :: post → ctx'.loadHole g.first =
          ⟨g.first, g.last, headOr Gap.first rfc815Null post, lastOr Gap.first rfc815Null pre⟩) ∧
      Ascending gs ∧ (ctx'.firstHole = rfc815Null ↔ ctx'.lastHole = rfc815Null) ∧
      ctx'.mostRestrictingLast = mostRestrictingLast (pkts.filterMap Packet.accept) ∧
      ∃ b, rfc815ctxComplete ctx' = some b ∧ (b = true ↔
        ∀ i ≤ ctx'.mostRestrictingLast, Covered (pkts.filterMap Packet.accept) i) := by
  obtain ⟨ctx', gs, hrun, h⟩ := rfc815ctxRun_inv ctx (fitsBuffer_of_last_le hend)
  obtain ⟨hf, hl, -⟩ := h.complete_iff
  refine ⟨ctx', gs, hrun, ⟨h.list.firstHole_eq, h.list.list.last, ?_⟩, h.list.asc,
    hf.trans hl.symm, h.last, ?_⟩
  · rintro pre g post rfl
    exact h.list.loadHole_eq
  · rw [h.last]
    exact h.rfc815ctxComplete_eq

/-- A context of zeros. -/
def zeroRfc815ctx : Rfc815ctx where
  mostRestrictingLast := 0
  hdrLen := 0
  direction := .uplink
  pktHeader := fun _ => 0
  pkt := fun _ => 0
  stores := []
  firstHole := 0
  lastHole := 0

/-- After bytes 16 to 23 the engine is not complete. -/
theorem rfc815_list_is_missing_blocks_farPacket :
    (∀ f ∈ [farPacket].filterMap Packet.accept, f.last ≤ 65514) ∧
      ∃ ctx', rfc815ctxRun zeroRfc815ctx [farPacket] = some ctx' ∧
        rfc815ctxComplete ctx' = some false := by
  have hacc : [farPacket].filterMap Packet.accept =
      [⟨16, 23, true, by decide, by decide, by decide⟩] := by decide
  have hend : ∀ f ∈ [farPacket].filterMap Packet.accept, f.last ≤ 65514 := by
    rw [hacc]
    simp
  refine ⟨hend, ?_⟩
  obtain ⟨ctx', gs, hrun, -, -, -, -, b, hb, hiff⟩ :=
    rfc815_list_is_missing_blocks zeroRfc815ctx [farPacket] hend
  refine ⟨ctx', hrun, ?_⟩
  rw [hb, some.injEq, ← Bool.not_eq_true, hiff]
  intro hcov
  have := hcov 0 (Nat.zero_le _)
  rw [hacc, covered_singleton] at this
  simp [Frag.Has] at this

/-! ## Fragmenting and reassembling -/

theorem rfc815ctxRun_pieces {ether : Mem} {sz : ℕ} {fed : List Fragment} (h : Pieces ether sz fed)
    (hsz : sz < 65536) (h20 : 20 ≤ ipHdrLen ether ipOff) (ctx : Rfc815ctx) :
    ∃ ctx' gs, rfc815ctxRun ctx (Pieces.packets fed) = some ctx' ∧
      Rfc815Inv (Pieces.accepted fed) ctx' gs ∧
      BufInv (fun i => ether (14 + ipHdrLen ether ipOff + i)) (Pieces.packets fed)
        ctx'.toPktBuf := by
  obtain ⟨ctx', gs, hrun, hinv, hbuf⟩ := rfc815ctxRun_bufInv ctx (h.fitsBuffer hsz h20)
  exact ⟨ctx', gs, hrun, hinv, hbuf _ fun pkt hp f hacc i hi => h.payload_eq hsz h20 hp hacc hi⟩

/-- For every frame that `fragment4` accepts and every sequence of fragments made of it, over a
buffer with arbitrary contents: the engine reports complete exactly when the fragments cover the
whole payload, it then returns the original frame, and in every state every byte of a block that has
arrived as a whole is that of the frame. (The bytes of a fragment behind its last whole block are
not copied into the buffer: no descriptor can overwrite them there.) -/
theorem rfc815_round_trip {e : Endian} {ether : Mem} {sz : ℕ} (hc : CanonicalFrame e ether sz)
    (hpay : 0 < payloadLen ether sz) (fed : List Fragment)
    (hfed : ∀ frag ∈ fed, Produced e ether sz frag) (ctx : Rfc815ctx) :
    ∃ ctx' b, rfc815ctxRun ctx (Pieces.packets fed) = some ctx' ∧
      rfc815ctxComplete ctx' = some b ∧
      (b = true ↔ ∀ i < payloadLen ether sz, ∃ frag ∈ fed, frag.Has i) ∧
      (b = true → Restores ether sz fun alloc => rfc815ctxReassemble e alloc ctx') ∧
      ∀ i < payloadLen ether sz, ¬BlockMissing (Pieces.accepted fed) i →
        ctx'.pkt i = ether (14 + ipHdrLen ether ipOff + i) := by
  have h : Pieces ether sz fed := pieces_of_produced hc.lt hfed
  obtain ⟨ctx', gs, hrun, hinv, hbuf⟩ := rfc815ctxRun_pieces h hc.lt hc.hdrLen_ge ctx
  obtain ⟨b, hb, hiff⟩ := hinv.rfc815ctxComplete_eq
  refine ⟨ctx', b, hrun, hb, ?_, fun hdone => hbuf.restores hc h (hiff.mp hdone),
    fun i hi hno => hbuf.data i ?_ hno⟩
  · rw [hiff, h.complete_iff hc.lt hc.hdrLen_ge, CoverPayload, and_iff_right hpay]
  · rw [hbuf.last]
    exact h.le_last hc.lt hc.hdrLen_ge hi

/-- The sample frame comes back from its fragments. -/
theorem rfc815_round_trip_sampleFrame :
    0 < payloadLen sampleFrame 50 ∧ ∃ ctx', rfc815ctxRun zeroRfc815ctx (Pieces.packets sampleFed) =
      some ctx' ∧ rfc815ctxComplete ctx' = some true ∧
      Restores sampleFrame 50 fun alloc => rfc815ctxReassemble .little alloc ctx' := by
  have hcov := sampleFed_cover
  obtain ⟨ctx', b, hrun, hb, hiff, hrest, -⟩ := rfc815_round_trip sampleFrame_canonical hcov.1
    sampleFed sampleFed_spec.2 zeroRfc815ctx
  have htrue := hiff.mpr hcov.2
  exact ⟨hcov.1, ctx', hrun, htrue ▸ hb, hrest htrue⟩

end Pptk.Ipfrag
