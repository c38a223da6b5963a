import Pptk.Ipfrag.Packet

/-!
# The linked-list engine

Model of `ipfrag/ipreass.c`. The hole list is a list of gaps; the two loops of
`reassctx_add` walk it once each and change, delete or insert holes on the way.
A new hole is stored inside the packet that created it, and a packet creates at
most one, since the branch that splits a hole returns; the list therefore holds
each hole structure once and only the ranges matter.

Main result: `mem_punchHoles`.
-/

namespace Pptk.Ipfrag

open Pptk.Lib Pptk.Iphdr List

/-- `struct hole` (packet.h:14-18) without its list node. -/
abbrev Hole := Gap ℕ

/-- `struct reassctx` (ipreass.h:11-16). -/
structure Reassctx where
  packetList : List Packet
  holeList : List Hole
  mostRestrictingLast : ℕ

/-- `reassctx_init` (ipreass.c:12-20). -/
def reassctxInit : Reassctx :=
  { packetList := [], holeList := [⟨0, 65535⟩], mostRestrictingLast := 65535 }

/-- `reassctx_complete` (ipreass.h:20-23). -/
def reassctxComplete (ctx : Reassctx) : Bool := ctx.holeList.isEmpty

/-- The loop over the hole list that follows a lower end of the datagram (ipreass.c:127-140). -/
def clipHoles (last : ℕ) : List Hole → List Hole
  | [] => []
  | hole :: rest =>
    if hole.first > last then clipHoles last rest
    else if hole.last > last then ⟨hole.first, last⟩ :: clipHoles last rest
    else hole :: clipHoles last rest

/-- The loop over the hole list that takes out the bytes of a fragment (ipreass.c:153-205). -/
def punchHoles (dataFirst dataLast : ℕ) : List Hole → List Hole
  | [] => []
  | hole :: rest =>
    if dataLast = hole.last then
      if dataFirst ≤ hole.first then rest
      else ⟨hole.first, dataFirst - 1⟩ :: rest
    else if dataLast < hole.last then
      if dataFirst ≤ hole.first then
        if dataLast + 1 > hole.first then ⟨dataLast + 1, hole.last⟩ :: rest else hole :: rest
      else ⟨hole.first, dataFirst - 1⟩ :: ⟨dataLast + 1, hole.last⟩ :: rest
    else if dataFirst ≤ hole.first then punchHoles dataFirst dataLast rest
    else if hole.last > dataFirst - 1 then
      ⟨hole.first, dataFirst - 1⟩ :: punchHoles dataFirst dataLast rest
    else hole :: punchHoles dataFirst dataLast rest

/-- `reassctx_add` (ipreass.c:103-206). -/
def reassctxAdd (ctx : Reassctx) (pkt : Packet) : Reassctx :=
  let ctx := { ctx with packetList := ctx.packetList ++ [pkt] }
  match pkt.accept with
  | none => ctx
  | some f =>
    let ctx :=
      if f.more = false ∧ ctx.mostRestrictingLast > f.last then
        { ctx with mostRestrictingLast := f.last, holeList := clipHoles f.last ctx.holeList }
      else ctx
    { ctx with holeList := punchHoles f.first f.last ctx.holeList }

/-! ## The two loops -/

theorem clipHoles_inside (last : ℕ) (gs : List Hole) : Inside (clipHoles last gs) gs := by
  induction gs with
  | nil => exact inside_refl _
  | cons g gs ih =>
    unfold clipHoles
    split_ifs with h1 h2
    · exact ih.skip
    · exact ih.skip.cons le_rfl h2.le
    · exact ih.skip.cons le_rfl le_rfl

variable {gs : List Hole} {a b : ℕ}

theorem clipHoles_ascending {last : ℕ} (ha : Ascending gs) : Ascending (clipHoles last gs) := by
  induction gs with
  | nil => exact ascending_nil
  | cons g gs ih =>
    obtain ⟨hg, _, hgs⟩ := (ascending_cons _ _).mp ha
    unfold clipHoles
    split_ifs with h1 h2
    · exact ih hgs
    · exact ha.cons_inside (ih hgs) (clipHoles_inside _ _) (not_lt.mp h1) h2.le
    · exact ha.cons_inside (ih hgs) (clipHoles_inside _ _) hg le_rfl

/-- Clipping takes away the missing bytes behind `last`. -/
theorem mem_clipHoles (last : ℕ) (gs : List Hole) (i : ℕ) :
    InGaps (clipHoles last gs) i ↔ InGaps gs i ∧ i ≤ last := by
  induction gs with
  | nil => simp [clipHoles]
  | cons g gs ih =>
    unfold clipHoles
    split_ifs with h1 h2 <;> grind [inGaps_cons, Gap.Has]

theorem punchHoles_inside (hab : a ≤ b + 1) (gs : List Hole) : Inside (punchHoles a b gs) gs := by
  induction gs with
  | nil => exact inside_refl _
  | cons g gs ih =>
    unfold punchHoles
    split_ifs with h1 h2 h3 h4 h5 h6 h7
    · exact (inside_refl gs).skip
    · exact (inside_refl gs).skip.cons le_rfl (by simp only; omega)
    · exact (inside_refl gs).skip.cons (by simp only; omega) le_rfl
    · exact inside_refl _
    · have h := (inside_refl gs).skip.cons (g := ⟨b + 1, g.last⟩) (h := g) (by simp only; omega)
        le_rfl
      exact h.cons le_rfl (by simp only; omega)
    · exact ih.skip
    · exact ih.skip.cons le_rfl h7.le
    · exact ih.skip.cons le_rfl le_rfl

theorem punchHoles_ascending (hab : a ≤ b + 1) (ha : Ascending gs) :
    Ascending (punchHoles a b gs) := by
  induction gs with
  | nil => exact ascending_nil
  | cons g gs ih =>
    obtain ⟨hg, hlt, hgs⟩ := (ascending_cons _ _).mp ha
    have hin := punchHoles_inside hab gs
    unfold punchHoles
    split_ifs with h1 h2 h3 h4 h5 h6 h7
    · exact hgs
    · exact ha.cons_inside hgs (inside_refl _) (by simp only; omega) (by simp only; omega)
    · exact ha.cons_inside hgs (inside_refl _) (by simp only; omega) le_rfl
    · exact ha
    · have h := ha.cons_inside (g := ⟨b + 1, g.last⟩) hgs (inside_refl _) (by simp only; omega)
        le_rfl
      refine (ascending_cons _ _).mpr ⟨by simp only; omega, fun x hx => ?_, h⟩
      rcases mem_cons.mp hx with rfl | hx
      · simp only; omega
      · have := hlt x hx
        simp only; omega
    · exact ih hgs
    · exact ha.cons_inside (ih hgs) hin (by simp only; omega) h7.le
    · exact ha.cons_inside (ih hgs) hin hg le_rfl

/-- The second loop removes the bytes of the fragment. The early returns are right because the holes
behind the current one start after its end. -/
theorem mem_punchHoles (hab : a ≤ b + 1) (ha : Ascending gs) (i : ℕ) :
    InGaps (punchHoles a b gs) i ↔ InGaps gs i ∧ ¬(a ≤ i ∧ i ≤ b) := by
  induction gs with
  | nil => simp [punchHoles]
  | cons g gs ih =>
    obtain ⟨hg, _, hgs⟩ := (ascending_cons _ _).mp ha
    have hlt : InGaps gs i → g.last < i := ha.lt_of_inGaps_tail
    have ih := ih hgs
    unfold punchHoles
    split_ifs with h1 h2 h3 h4 h5 h6 h7 <;> grind [inGaps_cons, Gap.Has]

/-! ## Whole runs -/

/-- The state of the engine after the accepted fragments `fs`. -/
structure ReassInv (fs : List Frag) (ctx : Reassctx) : Prop where
  last : ctx.mostRestrictingLast = mostRestrictingLast fs
  ascending : Ascending ctx.holeList
  holes : ∀ i, InGaps ctx.holeList i ↔ Missing fs i

theorem reassctxInit_inv : ReassInv [] reassctxInit where
  last := rfl
  ascending := by simp [reassctxInit]
  holes i := by simp [reassctxInit, Missing, Gap.Has]

theorem reassctxAdd_inv {fs : List Frag} {ctx : Reassctx} (h : ReassInv fs ctx) (pkt : Packet) :
    ReassInv (fs ++ pkt.accept.toList) (reassctxAdd ctx pkt) := by
  unfold reassctxAdd
  cases hacc : pkt.accept with
  | none => simpa using ⟨h.last, h.ascending, h.holes⟩
  | some f =>
    have hlast := mostRestrictingLast_append_singleton fs f
    simp only [Option.toList_some]
    split_ifs with hf
    · rw [h.last] at hf
      rw [if_pos hf] at hlast
      refine ⟨hlast.symm, punchHoles_ascending (Nat.le_succ_of_le f.le)
        (clipHoles_ascending h.ascending), fun i => ?_⟩
      rw [missing_append_singleton, hlast, mem_punchHoles (Nat.le_succ_of_le f.le)
        (clipHoles_ascending h.ascending), mem_clipHoles, h.holes, Frag.Has]
    · rw [h.last] at hf
      rw [if_neg hf] at hlast
      refine ⟨h.last.trans hlast.symm, punchHoles_ascending (Nat.le_succ_of_le f.le) h.ascending,
        fun i => ?_⟩
      rw [missing_append_singleton, hlast, mem_punchHoles (Nat.le_succ_of_le f.le) h.ascending,
        h.holes, Frag.Has, and_iff_left_of_imp fun hm : Missing fs i => hm.1]

/-- `reassctx_add` on a sequence of packets, from `reassctx_init`. -/
def reassctxRun (pkts : List Packet) : Reassctx := pkts.foldl reassctxAdd reassctxInit

/-- A run of a step function keeps an invariant that is indexed by the accepted fragments. -/
theorem foldl_accept_inv {σ : Type*} {step : σ → Packet → σ} {Inv : List Frag → σ → Prop} {s : σ}
    (hinit : Inv [] s)
    (hstep : ∀ {fs s}, Inv fs s → ∀ pkt, Inv (fs ++ pkt.accept.toList) (step s pkt))
    (pkts : List Packet) : Inv (pkts.filterMap Packet.accept) (pkts.foldl step s) := by
  induction pkts using reverseRecOn with
  | nil => exact hinit
  | append_singleton pkts pkt ih =>
    rw [foldl_append, filterMap_append]
    have := hstep ih pkt
    cases hacc : pkt.accept <;> simpa [hacc] using this

/-- After every sequence of packets the holes are ascending and are exactly the missing bytes. -/
theorem reassctxRun_inv (pkts : List Packet) :
    ReassInv (pkts.filterMap Packet.accept) (reassctxRun pkts) :=
  foldl_accept_inv reassctxInit_inv (fun h pkt => reassctxAdd_inv h pkt) pkts

theorem reassctxRun_packetList (pkts : List Packet) : (reassctxRun pkts).packetList = pkts := by
  unfold reassctxRun
  induction pkts using reverseRecOn with
  | nil => rfl
  | append_singleton pkts pkt ih =>
    rw [foldl_append, foldl_cons, foldl_nil]
    nth_rewrite 2 [← ih]
    unfold reassctxAdd
    cases pkt.accept with
    | none => rfl
    | some f => simp only; split_ifs <;> rfl

theorem reassctxComplete_iff {fs : List Frag} {ctx : Reassctx} (h : ReassInv fs ctx) :
    reassctxComplete ctx = true ↔ ∀ i ≤ ctx.mostRestrictingLast, Covered fs i := by
  rw [reassctxComplete, List.isEmpty_iff, h.ascending.eq_nil_iff, h.last]
  simp only [h.holes, Missing, not_and, not_not]

/-- After every sequence of packets, malformed ones included, the hole list is sorted, its holes are
nonempty and disjoint and contain exactly the bytes `0 … most_restricting_last` that no accepted
fragment covers, so `reassctx_complete` holds exactly when all of these are covered. -/
theorem reassctx_holes_are_missing_bytes (pkts : List Packet) : let ctx := reassctxRun pkts
    let fs := pkts.filterMap Packet.accept
    ctx.mostRestrictingLast = mostRestrictingLast fs ∧ Ascending ctx.holeList ∧
      (∀ i, InGaps ctx.holeList i ↔ i ≤ ctx.mostRestrictingLast ∧ ¬Covered fs i) ∧
      (reassctxComplete ctx = true ↔ ∀ i ≤ ctx.mostRestrictingLast, Covered fs i) := by
  intro ctx fs
  have h : ReassInv fs ctx := reassctxRun_inv pkts
  refine ⟨h.last, h.ascending, fun i => ?_, reassctxComplete_iff h⟩
  rw [h.holes, Missing, h.last]

end Pptk.Ipfrag
