import Pptk.Ipfrag.Rb815.Holes
import Pptk.Ipfrag.Rfc815

/-!
# Adding packets to the in-buffer tree

`add_data` looks for a hole that meets the fragment as long as there is one, and
`repair_most_restricting` cuts off what lies behind the end of the datagram. The
holes that are left after a sequence of packets are the blocks that have not arrived
(`Rb815Inv`), for every sequence that leaves the descriptors inside the buffer.

Main results: `HoleTree.addData`, `HoleTree.repairMostRestricting` and `rb815ctxRun_inv`.
-/

namespace Pptk.Ipfrag

open Pptk.Lib Pptk.Iphdr Pptk.Rbtree TPath Multiset Option

variable {D : ℕ → Prop} {ctx : Rb815ctx} {gs : List Hole} {T : CTree ℕ} {a b : ℕ}

/-! ## The search -/

/-- The hole lies in front of the fragment `a … b` or behind it. -/
def Misses (a b : ℕ) (g : Hole) : Prop := g.last < a ∨ b < g.first

variable {fuel : ℕ}

theorem searchHole_subtree {C : TPath ℕ} {S : CTree ℕ} (h : HoleTree D ctx gs (C.fill S))
    (hC : ∀ g ∈ gs, g.first ∈ C.keys → Misses a b g) (hfuel : S.keys.card < fuel) :
    ∃ loc, Rb815ctx.searchHole a b ctx fuel (S.root?.getD rb815Null) = some loc ∧
      (loc = rb815Null ∧ (∀ g ∈ gs, Misses a b g) ∨ ∃ g ∈ gs, loc = g.first ∧ ¬Misses a b g) := by
  induction fuel generalizing C S with
  | zero => omega
  | succ fuel ih =>
    cases S with
    | leaf =>
      refine ⟨rb815Null, if_pos rfl, .inl ⟨rfl, fun g hg => hC g hg ?_⟩⟩
      have := h.mem_keys.mpr ⟨g, hg, rfl⟩
      rwa [keys_fill, CTree.keys, add_zero] at this
    | node c l k r =>
      obtain ⟨g, hg, rfl⟩ :=
        h.mem_keys.mp (show k ∈ (C.fill (.node c l k r)).keys by simp [CTree.keys])
      have hle := h.asc.1 g hg
      have hlen := h.len g hg
      have hsorted := h.asc.pairwise_first
      rw [← h.nodes] at hsorted
      have hl : (ctx.loadHole g.first).left.ptr = l.root? :=
        Linked815.child_ptr (d := .left) h.tree.toLinked815
      have hr : (ctx.loadHole g.first).right.ptr = r.root? :=
        Linked815.child_ptr (d := .right) h.tree.toLinked815
      rw [CTree.keys, card_cons, card_add] at hfuel
      -- a hole that does not start behind `g` does not end behind it
      have hlast : ∀ g' ∈ gs, g'.first ≤ g.first → g'.last ≤ g.last := by
        intro g' hg' hfirst
        obtain ⟨pre, post, rfl⟩ := List.append_of_mem hg
        rcases mem_middle.mp hg' with rfl | hm
        · exact le_rfl
        · have := h.asc.beside hm
          omega
      rw [CTree.root?, getD_some, Rb815ctx.searchHole, if_neg (h.isLoc hg).ne_null]
      simp only [hlen]
      split_ifs with h1 h2
      · rw [Link815.loc_eq_getD, hr]
        refine ih (C := ⟨.right, c, g.first, l⟩ :: C) h (fun g' hg' hk => ?_) (by omega)
        rw [TPath.keys, mem_cons, mem_add] at hk
        have hfirst : g'.first ≤ g.first → Misses a b g' := fun hf => by
          have := hlast g' hg' hf
          exact .inl (by omega)
        rcases hk with hk | hk | hk
        · exact hfirst hk.le
        · exact hfirst (lt_of_sorted (d := .left) hsorted hk).le
        · exact hC g' hg' hk
      · rw [Link815.loc_eq_getD, hl]
        refine ih (C := ⟨.left, c, g.first, r⟩ :: C) h (fun g' hg' hk => ?_) (by omega)
        rw [TPath.keys, mem_cons, mem_add] at hk
        rcases hk with hk | hk | hk
        · exact .inr (by simp only at hk; omega)
        · have : g.first < g'.first := lt_of_sorted (d := .right) hsorted hk
          exact .inr (by omega)
        · exact hC g' hg' hk
      · refine ⟨g.first, rfl, .inr ⟨g, hg, rfl, ?_⟩⟩
        rw [Misses]
        omega

/-- The search finds a hole that meets the fragment, if any does. -/
theorem HoleTree.searchHole (a b : ℕ) (h : HoleTree D ctx gs T) :
    ∃ loc, Rb815ctx.searchHole a b ctx treeBound ctx.rootHole = some loc ∧
      (loc = rb815Null ∧ (∀ g ∈ gs, Misses a b g) ∨ ∃ g ∈ gs, loc = g.first ∧ ¬Misses a b g) := by
  have hroot : ctx.rootHole = T.root?.getD rb815Null := by
    rw [← h.tree.rep.root, Rb815ctx.view]
    split_ifs with h0
    · exact h0
    · rfl
  rw [hroot]
  exact searchHole_subtree (C := []) h (fun g hg hk => by simp [TPath.keys] at hk) h.card_lt

/-! ## The loop over the holes that meet a fragment -/

/-- How many holes meet the fragment `a … b`. -/
def holesMet (a b : ℕ) (gs : List Hole) : ℕ := gs.countP fun g => a ≤ g.last ∧ g.first ≤ b

/-- How many holes the fragment `a … b` fills. -/
def holesFilled (a b : ℕ) (gs : List Hole) : ℕ := gs.countP fun g => a ≤ g.first ∧ g.last ≤ b

/-- Taking out `n` nodes stores nothing at the location that stands for none. -/
def SafeToFill (T : CTree ℕ) (n : ℕ) : Prop := n = 0 ∨ T.IsRb ∧ n ≤ 1

theorem HoleTree.holesMet_lt (h : HoleTree D ctx gs T) : holesMet a b gs < treeBound := by
  have hcard := h.card_lt
  rw [← CTree.coe_toList, h.nodes, coe_card, List.length_map] at hcard
  exact lt_of_le_of_lt List.countP_le_length hcard

section

variable {pre post mid : List Hole} {g : Hole}

theorem inGaps_replace (hmid : ∀ i, ¬(a ≤ i ∧ i ≤ b) → (InGaps mid i ↔ g.Has i)) (i : ℕ) :
    InGaps (pre ++ (mid ++ post)) i ∧ ¬(a ≤ i ∧ i ≤ b) ↔
      InGaps (pre ++ g :: post) i ∧ ¬(a ≤ i ∧ i ≤ b) := by
  refine and_congr_left fun hi => ?_
  rw [inGaps_append, inGaps_append, inGaps_append, inGaps_cons, hmid i hi]

theorem holesMet_replace (hmid : ∀ x ∈ mid, Misses a b x) (hg : ¬Misses a b g) :
    holesMet a b (pre ++ g :: post) = holesMet a b (pre ++ (mid ++ post)) + 1 := by
  have h0 : mid.countP (fun g => a ≤ g.last ∧ g.first ≤ b) = 0 := by
    rw [List.countP_eq_zero]
    intro x hx
    have := hmid x hx
    rw [Misses] at this
    simp only [decide_eq_true_eq]
    omega
  have h1 : decide (a ≤ g.last ∧ g.first ≤ b) = true := by
    rw [Misses] at hg
    simp only [decide_eq_true_eq]
    omega
  simp only [holesMet, List.countP_append, List.countP_cons, h0, h1, if_true]
  omega

theorem holesFilled_replace (ha : Ascending (pre ++ (mid ++ post)))
    (hmid : ∀ x ∈ mid, Misses a b x) :
    holesFilled a b (pre ++ g :: post) =
      holesFilled a b (pre ++ (mid ++ post)) + if a ≤ g.first ∧ g.last ≤ b then 1 else 0 := by
  have h0 : mid.countP (fun g => a ≤ g.first ∧ g.last ≤ b) = 0 := by
    rw [List.countP_eq_zero]
    intro x hx
    have := hmid x hx
    have := ha.1 x (by simp [hx])
    rw [Misses] at *
    simp only [decide_eq_true_eq]
    omega
  simp only [holesFilled, List.countP_append, List.countP_cons, h0, decide_eq_true_eq]
  omega

theorem InGaps.beside (ha : Ascending (pre ++ g :: post)) {i : ℕ} (h : InGaps (pre ++ post) i) :
    i < g.first ∨ g.last < i := by
  obtain ⟨g', hg', h1, h2⟩ := h
  have := ha.beside hg'
  omega

end

/-! ### Balance -/

/-- The fragment `a … b` fills the hole. -/
def FilledBy (a b : ℕ) (g : Hole) : Prop := a ≤ g.first ∧ g.last ≤ b

/-- What taking the bytes `a … b` out of the holes does to the balance of the tree: it is kept if no
hole is filled, and changed only by splitting a hole. If one hole is filled, it is lost exactly if
its node needs the repair that is left out. -/
structure FillStep (a b : ℕ) (gs : List Hole) (T T' : CTree ℕ) : Prop where
  none : (∀ g ∈ gs, ¬FilledBy a b g) → T.IsRb → T'.IsRb
  same : (∀ g ∈ gs, ¬FilledBy a b g) → (∀ g ∈ gs, ¬(g.first < a ∧ b < g.last)) → (T'.IsRb ↔ T.IsRb)
  one : ∀ g ∈ gs, FilledBy a b g → (∀ g' ∈ gs, FilledBy a b g' → g' = g) → T.IsRb →
    (T'.IsRb ↔ ¬T.NeedsRepair g.first)

namespace FillStep

variable {pre post mid : List Hole} {g : Hole} {T1 T' : CTree ℕ}

theorem refl (ha : Ascending gs) (hmiss : ∀ g ∈ gs, Misses a b g) : FillStep a b gs T T := by
  refine ⟨fun _ => id, fun _ _ => Iff.rfl, fun g hg hin => ?_⟩
  have h1 := ha.1 g hg
  have h2 := hmiss g hg
  rw [Misses] at h2
  rw [FilledBy] at hin
  omega

theorem split (ha : Ascending (pre ++ g :: post)) (h1 : g.first < a) (h2 : b < g.last)
    (hrb : T.IsRb → T'.IsRb) : FillStep a b (pre ++ g :: post) T T' := by
  refine ⟨fun _ => hrb, fun _ hno => absurd ⟨h1, h2⟩ (hno g (by simp)), fun g' hg' hin => ?_⟩
  have hle := ha.1 g' hg'
  rw [FilledBy] at hin
  rcases mem_middle.mp hg' with rfl | hm
  · omega
  · have := ha.beside hm
    omega

theorem fill (ha : Ascending (pre ++ g :: post)) (hg : FilledBy a b g)
    (hrb : T.IsRb → (T1.IsRb ↔ ¬T.NeedsRepair g.first)) (h : FillStep a b (pre ++ post) T1 T') :
    FillStep a b (pre ++ g :: post) T T' := by
  refine ⟨fun hno => absurd hg (hno g (by simp)), fun hno => absurd hg (hno g (by simp)), ?_⟩
  intro g' hg' hin hall hT
  obtain rfl : g = g' := hall g (by simp) hg
  have hle := ha.1 g hg'
  rw [FilledBy] at hg
  refine (h.same (fun x hx hx' => ?_) fun x hx => ?_).trans (hrb hT)
  · have hbes := ha.beside hx
    rw [hall x (mem_middle.mpr (.inr hx)) hx'] at hbes
    omega
  · have := ha.beside hx
    omega

theorem replace (hab : a ≤ b + 1) (ha : Ascending (pre ++ (mid ++ post))) (hg : ¬FilledBy a b g)
    (hmid : ∀ x ∈ mid, Misses a b x) (hrb : T1.IsRb ↔ T.IsRb)
    (hneeds : ∀ g' ∈ pre ++ post, T1.NeedsRepair g'.first ↔ T.NeedsRepair g'.first)
    (h : FillStep a b (pre ++ (mid ++ post)) T1 T') : FillStep a b (pre ++ g :: post) T T' := by
  have hmem : ∀ x ∈ pre ++ (mid ++ post), x ∈ mid ∨ x ∈ pre ++ post := fun x hx => by
    simp only [List.mem_append] at hx ⊢
    tauto
  have hin : ∀ x ∈ pre ++ (mid ++ post), FilledBy a b x → x ∈ pre ++ post := fun x hx hx' => by
    refine (hmem x hx).resolve_left fun hm => ?_
    have h1 := hmid x hm
    have h2 := ha.1 x hx
    rw [Misses] at h1
    rw [FilledBy] at hx'
    omega
  have hno : (∀ x ∈ pre ++ g :: post, ¬FilledBy a b x) → ∀ x ∈ pre ++ (mid ++ post),
    ¬FilledBy a b x := fun hall x hx hx' => hall x (mem_middle.mpr (.inr (hin x hx hx'))) hx'
  refine ⟨fun hall hT => h.none (hno hall) (hrb.mpr hT), fun hall hc =>
    (h.same (hno hall) fun x hx => ?_).trans hrb, ?_⟩
  · rcases hmem x hx with hm | hm
    · have := hmid x hm
      rw [Misses] at this
      omega
    · exact hc x (mem_middle.mpr (.inr hm))
  · intro g' hg' hin' hall hT
    have hg'' : g' ∈ pre ++ post := (mem_middle.mp hg').resolve_left fun he => hg (he ▸ hin')
    rw [← hneeds g' hg'']
    refine h.one g' ?_ hin' (fun x hx hx' => hall x (mem_middle.mpr (.inr (hin x hx hx'))) hx')
      (hrb.mpr hT)
    simp only [List.mem_append] at hg'' ⊢
    tauto

end FillStep

/-- `add_data` takes the bytes `a … b` out of the holes. If it did not set `mod`, there was nothing
to take out. -/
theorem HoleTree.addData (hD : ∀ i, rb815Null ≤ i → D i) (hab : a ≤ b + 1) (mod : Bool)
    (h : HoleTree D ctx gs T) (hfuel : holesMet a b gs < fuel)
    (hslot : InGaps gs (b + 1) → Slot D (b + 1)) :
    ∃ ctx' mod' gs' T', Rb815ctx.addData a b fuel ctx mod = some (ctx', mod') ∧
      HoleTree D ctx' gs' T' ∧ (∀ i, InGaps gs' i ↔ InGaps gs i ∧ ¬(a ≤ i ∧ i ≤ b)) ∧
      HoleStep D (SafeToFill T (holesFilled a b gs)) ctx ctx' ∧
      (mod' = false → mod = false ∧ ∀ i, InGaps gs i → ¬(a ≤ i ∧ i ≤ b)) ∧
      FillStep a b gs T T' := by
  induction fuel generalizing ctx gs T mod with
  | zero => omega
  | succ fuel ih =>
    obtain ⟨loc, hsearch, hcase⟩ := h.searchHole a b
    rw [Rb815ctx.addData, hsearch, bind_eq_bind, bind_some]
    rcases hcase with ⟨rfl, hmiss⟩ | ⟨g, hg, rfl, hmeets⟩
    · have hno : ∀ i, InGaps gs i → ¬(a ≤ i ∧ i ≤ b) := by
        rintro i ⟨g, hg, h1, h2⟩
        have := hmiss g hg
        rw [Misses] at this
        omega
      exact ⟨ctx, mod, gs, T, if_pos rfl, h, fun i => ⟨fun hi => ⟨hi, hno i hi⟩, And.left⟩, .refl _,
        fun hm => ⟨hm, hno⟩, .refl h.asc hmiss⟩
    · rw [if_neg (h.isLoc hg).ne_null]
      simp only [h.len g hg]
      have hle := h.asc.1 g hg
      have hmisses := hmeets
      rw [Misses] at hmeets
      obtain ⟨pre, post, rfl⟩ := List.append_of_mem hg
      -- what follows when the hole has been replaced by a hole that the fragment misses, or none
      have next : ∀ (mid : List Hole) {ctx1 : Rb815ctx} {T1 : CTree ℕ},
          HoleTree D ctx1 (pre ++ (mid ++ post)) T1 → (∀ x ∈ mid, Misses a b x) →
          (∀ i, ¬(a ≤ i ∧ i ≤ b) → (InGaps mid i ↔ g.Has i)) →
          HoleStep D (SafeToFill T (holesFilled a b (pre ++ g :: post))) ctx ctx1 →
          (SafeToFill T (holesFilled a b (pre ++ g :: post)) →
            SafeToFill T1 (holesFilled a b (pre ++ (mid ++ post)))) →
          (∀ T', FillStep a b (pre ++ (mid ++ post)) T1 T' → FillStep a b (pre ++ g :: post) T T') →
          ∃ ctx' mod' gs' T', Rb815ctx.addData a b fuel ctx1 true = some (ctx', mod') ∧
            HoleTree D ctx' gs' T' ∧
            (∀ i, InGaps gs' i ↔ InGaps (pre ++ g :: post) i ∧ ¬(a ≤ i ∧ i ≤ b)) ∧
            HoleStep D (SafeToFill T (holesFilled a b (pre ++ g :: post))) ctx ctx' ∧
            (mod' = false → mod = false ∧ ∀ i, InGaps (pre ++ g :: post) i → ¬(a ≤ i ∧ i ≤ b)) ∧
            FillStep a b (pre ++ g :: post) T T' := by
        intro mid ctx1 T1 h₁ hmid hpoints hstep hsafe hbal
        rw [holesMet_replace hmid hmisses] at hfuel
        have hin : ∀ i, InGaps (pre ++ (mid ++ post)) i ∧ ¬(a ≤ i ∧ i ≤ b) ↔
            InGaps (pre ++ g :: post) i ∧ ¬(a ≤ i ∧ i ≤ b) := inGaps_replace hpoints
        obtain ⟨ctx', mod', gs', T', hadd, h', hpts, hstep', hmod, hfill⟩ := ih true h₁ (by omega)
          fun hi => hslot ((hin (b + 1)).mp ⟨hi, by omega⟩).1
        exact ⟨ctx', mod', gs', T', hadd, h', fun i => (hpts i).trans (hin i),
          hstep.trans (hstep'.mono hsafe), fun hm => absurd (hmod hm).1 (by simp), hbal T' hfill⟩
      split_ifs with h1 h2 h3 h4
      · obtain ⟨ctx1, T1, hsplit, h₁, hstep, hrb⟩ := h.split
          (SafeToFill T (holesFilled a b (pre ++ g :: post))) h1.2 hab (by omega)
          (hslot ⟨g, hg, by omega, by omega⟩)
        refine ⟨ctx1, true, _, T1, by rw [hsplit]; rfl, h₁, fun i => ?_, hstep, by simp,
          .split h.asc h1.2 (by omega) hrb⟩
        have hbes : InGaps (pre ++ post) i → i < g.first ∨ g.last < i := InGaps.beside h.asc
        simp only [inGaps_append, inGaps_cons, Gap.Has] at hbes ⊢
        by_cases hin : InGaps pre i ∨ InGaps post i
        · have := hbes hin
          refine iff_of_true (hin.imp_right fun hi => .inr (.inr hi)) ⟨hin.imp_right .inr, by omega⟩
        · rw [not_or] at hin
          simp only [hin.1, hin.2, false_or, or_false]
          omega
      · obtain ⟨ctx1, T1, hdel, h₁, hstep, hrb⟩ := h.delete hD
        rw [hdel]
        have hnil : ∀ x ∈ ([] : List Hole), Misses a b x := by simp
        have hn := holesFilled_replace (g := g) (show Ascending (pre ++ ([] ++ post)) from h₁.asc)
          hnil
        rw [if_pos (by omega)] at hn
        refine next [] h₁ hnil (fun i hi => ?_) (hstep.mono fun hs => ?_) (fun hs => .inl ?_)
          fun T' => .fill h.asc ⟨by omega, by omega⟩ hrb
        · simp only [inGaps_nil, Gap.Has, false_iff]
          omega
        · exact hs.elim (fun h0 => absurd h0 (by omega)) And.left
        · rcases hs with hs | hs <;> omega
      · obtain ⟨h₁, hstep⟩ := h.shrink (v := a - 1) (n := a - g.first)
          (SafeToFill T (holesFilled a b (pre ++ g :: post))) (by omega) (by omega) (by omega)
        have hmid : ∀ x ∈ ([⟨g.first, a - 1⟩] : List Hole), Misses a b x := by
          simp only [List.mem_singleton, forall_eq, Misses]
          omega
        have hn := holesFilled_replace (g := g) h₁.asc hmid
        rw [if_neg (by omega), add_zero] at hn
        refine next _ h₁ hmid (fun i hi => ?_) hstep (fun hs => hn ▸ hs)
          fun T' => .replace hab h₁.asc (by rw [FilledBy]; omega) hmid Iff.rfl fun _ _ => Iff.rfl
        simp only [inGaps_cons, inGaps_nil, or_false, Gap.Has]
        omega
      · obtain ⟨ctx1, T1, hmove, h₁, hstep, hrb, hneeds⟩ := h.move
          (SafeToFill T (holesFilled a b (pre ++ g :: post))) (b := b) (by omega) (by omega)
          (hslot ⟨g, hg, by omega, by omega⟩)
        rw [hmove]
        have hmid : ∀ x ∈ ([⟨b + 1, g.last⟩] : List Hole), Misses a b x := by
          simp only [List.mem_singleton, forall_eq, Misses]
          omega
        have hn := holesFilled_replace (g := g) h₁.asc hmid
        rw [if_neg (by omega), add_zero] at hn
        refine next _ h₁ hmid (fun i hi => ?_) hstep (fun hs => ?_)
          fun T' => .replace hab h₁.asc (by rw [FilledBy]; omega) hmid hrb fun g' hg' =>
            hneeds _ ?_ ?_
        · simp only [inGaps_cons, inGaps_nil, or_false, Gap.Has]
          omega
        · rw [hn] at hs
          exact hs.imp_right fun hs => ⟨hrb.mpr hs.1, hs.2⟩
        · have := h.asc.beside hg'
          omega
        · have := h.asc.beside hg'
          have := h.asc.1 g' (mem_middle.mpr (.inr hg'))
          omega
      · omega

/-! ## Cutting off what lies behind the end -/

theorem HoleTree.rootHole_eq_null (h : HoleTree D ctx gs T) :
    ctx.rootHole = rb815Null ↔ gs = [] := by
  have hroot := h.tree.rep.root
  have hnil : T = .leaf ↔ gs = [] := by
    rw [← List.map_eq_nil_iff (f := Gap.first), ← h.nodes]
    cases T <;> simp [CTree.toList]
  rw [← hnil, ← CTree.root?_eq_none, ← hroot, Rb815ctx.view]
  split_ifs with h0 <;> simp [h0]

/-- The loop of `repair_most_restricting` takes out the holes behind the end, from the last one on.
-/
theorem HoleTree.deleteBehind (hD : ∀ i, rb815Null ≤ i → D i) (h : HoleTree D ctx gs T)
    (hfuel : gs.length < fuel) :
    ∃ ctx' gs' T' rest loc, Rb815ctx.deleteBehind fuel ctx = some (ctx', loc) ∧
      HoleTree D ctx' gs' T' ∧ gs = gs' ++ rest ∧ (∀ g ∈ rest, ctx.mostRestrictingLast < g.first) ∧
      HoleStep D (SafeToFill T rest.length) ctx ctx' ∧ (rest = [] → T' = T) ∧
      (∀ g, rest = [g] → T.IsRb → (T'.IsRb ↔ ¬T.NeedsRepair g.first)) ∧
      (gs' = [] ∧ loc = rb815Null ∨ ∃ pre g, gs' = pre ++ [g] ∧ loc = g.first ∧
        g.first ≤ ctx.mostRestrictingLast) := by
  induction fuel generalizing ctx gs T with
  | zero => omega
  | succ fuel ih =>
    rw [Rb815ctx.deleteBehind]
    cases gs using List.reverseRecOn with
    | nil =>
      exact ⟨ctx, [], T, [], rb815Null, if_pos (h.rootHole_eq_null.mpr rfl), h, rfl, by simp,
        .refl _, fun _ => rfl, by simp, .inl ⟨rfl, rfl⟩⟩
    | append_singleton pre g =>
      have hlast : ctx.rightmost treeBound = some g.first := by
        rw [h.tree.toLinked815.rightmost h.card_lt.le, h.nodes]
        simp
      rw [if_neg (by rw [h.rootHole_eq_null]; simp), hlast, bind_eq_bind, bind_some]
      split_ifs with h1
      · obtain ⟨ctx1, T1, hdel, h₁, hstep, hrb⟩ := h.delete hD
        rw [List.append_nil] at h₁
        obtain ⟨ctx', gs', T', rest, loc, hloop, h', rfl, hrest, hstep', hT, -, hloc⟩ :=
          ih h₁ (by simpa using hfuel)
        rw [hstep.last] at hrest hloc
        refine ⟨ctx', gs', T', rest ++ [g], loc, by rw [hdel]; exact hloop, h', by simp, ?_,
          ?_, by simp, fun x hx => ?_, hloc⟩
        · intro x hx
          rcases List.mem_append.mp hx with hx | hx
          · exact hrest x hx
          · rw [List.mem_singleton.mp hx]
            exact h1
        · rw [List.length_append, List.length_singleton]
          refine (hstep.mono fun hs => ?_).trans (hstep'.mono fun hs => .inl ?_)
          · exact hs.elim (fun h0 => absurd h0 (by omega)) And.left
          · rcases hs with hs | hs <;> omega
        · obtain ⟨rfl, rfl⟩ : rest = [] ∧ g = x := by
            cases rest with
            | nil => simpa using hx
            | cons y rest => simp at hx
          rw [hT rfl]
          exact hrb
      · exact ⟨ctx, pre ++ [g], T, [], g.first, rfl, h, by simp, by simp, .refl _,
          fun _ => rfl, by simp, .inr ⟨pre, g, rfl, rfl, by omega⟩⟩

/-- `repair_most_restricting` takes out what lies behind the end of the datagram. The nodes of the
holes `rest` are taken out of the tree. -/
theorem HoleTree.repairMostRestricting (hD : ∀ i, rb815Null ≤ i → D i) (h : HoleTree D ctx gs T) :
    ∃ ctx' gs' T' rest, ctx.repairMostRestricting = some ctx' ∧ HoleTree D ctx' gs' T' ∧
      (∀ i, InGaps gs' i ↔ InGaps gs i ∧ i ≤ ctx.mostRestrictingLast) ∧
      gs.map Gap.first = gs'.map Gap.first ++ rest ∧ (∀ k ∈ rest, ctx.mostRestrictingLast < k) ∧
      HoleStep D (SafeToFill T rest.length) ctx ctx' ∧ (rest = [] → T' = T) ∧
      ∀ k, rest = [k] → T.IsRb → (T'.IsRb ↔ ¬T.NeedsRepair k) := by
  have hlen : gs.length < treeBound := by
    have := h.card_lt
    rwa [← CTree.coe_toList, h.nodes, coe_card, List.length_map] at this
  obtain ⟨ctx1, gs1, T1, rest, loc, hloop, h₁, rfl, hrest, hstep, hT, hrb, hloc⟩ :=
    h.deleteBehind hD hlen
  have hbehind : ∀ i, InGaps rest i → ctx.mostRestrictingLast < i := by
    rintro i ⟨g, hg, hi, -⟩
    exact lt_of_lt_of_le (hrest g hg) hi
  have hmap : ∀ k ∈ rest.map Gap.first, ctx.mostRestrictingLast < k := by
    intro k hk
    obtain ⟨g, hg, rfl⟩ := List.mem_map.mp hk
    exact hrest g hg
  have hnil : rest.map Gap.first = [] → T1 = T := fun hr => hT (List.map_eq_nil_iff.mp hr)
  have hone : ∀ k, rest.map Gap.first = [k] → T.IsRb → (T1.IsRb ↔ ¬T.NeedsRepair k) := by
    intro k hk
    obtain ⟨g, rfl, rfl⟩ := List.map_eq_singleton_iff.mp hk
    exact hrb g rfl
  rw [← List.length_map Gap.first] at hstep
  rw [Rb815ctx.repairMostRestricting, hloop, bind_eq_bind, bind_some]
  rcases hloc with ⟨rfl, rfl⟩ | ⟨pre, g, rfl, rfl, hle⟩
  · refine ⟨ctx1, [], T1, rest.map Gap.first, if_pos rfl, h₁, fun i => ?_, by simp, hmap, hstep,
      hnil, hone⟩
    refine iff_of_false (inGaps_nil i) fun ⟨hi, hi'⟩ => ?_
    have := hbehind i hi
    omega
  · -- the last hole that is left loses what lies behind the end
    have hg : g ∈ pre ++ [g] := by simp
    have hfl := h₁.asc.1 g hg
    have hpre : ∀ i, InGaps pre i → i < g.first := by
      rintro i ⟨g', hg', -, hi⟩
      exact lt_of_le_of_lt hi (((ascending_append _ _).mp h₁.asc).2.2 g' hg' g (by simp))
    have hmrl : ctx1.mostRestrictingLast = ctx.mostRestrictingLast := hstep.last
    simp only [if_neg (h₁.isLoc hg).ne_null, h₁.len g hg, hmrl]
    have hpoints : ∀ v, v = min g.last ctx.mostRestrictingLast → ∀ i,
        InGaps (pre ++ [⟨g.first, v⟩]) i ↔
          InGaps (pre ++ [g] ++ rest) i ∧ i ≤ ctx.mostRestrictingLast := by
      intro v hv i
      simp only [inGaps_append, inGaps_cons, inGaps_nil, or_false, Gap.Has]
      by_cases hP : InGaps pre i
      · have := hpre i hP
        exact iff_of_true (.inl hP) ⟨.inl (.inl hP), by omega⟩
      · by_cases hR : InGaps rest i
        · have := hbehind i hR
          simp only [hP, hR, false_or, or_true, true_and]
          omega
        · simp only [hP, hR, false_or, or_false]
          omega
    split_ifs with h1
    · obtain ⟨h2, hstep2⟩ := h₁.shrink (v := ctx.mostRestrictingLast)
        (n := ctx.mostRestrictingLast - g.first + 1) (SafeToFill T (rest.map Gap.first).length) hle
        (by omega) (by omega)
      exact ⟨_, _, T1, rest.map Gap.first, rfl, h2, hpoints _ (by omega), by simp, hmap,
        hstep.trans hstep2, hnil, hone⟩
    · obtain ⟨h2, hstep2⟩ := h₁.shrink (v := g.last) (n := g.last + 1 - g.first)
        (SafeToFill T (rest.map Gap.first).length) hfl le_rfl rfl
      have hsame : ({ ctx1.loadHole g.first with
          len := .ofNat _ (g.last + 1 - g.first) } : Rb815hole) = ctx1.loadHole g.first := by
        rw [← h₁.len g hg, Fin.ofNat_val_eq_self]
      rw [hsame] at h2 hstep2
      exact ⟨_, _, T1, rest.map Gap.first, rfl, h2, hpoints _ (by omega), by simp, hmap,
        hstep.trans hstep2, hnil, hone⟩

/-! ## One packet -/

theorem HoleTree.congr {ctx' : Rb815ctx} (h : HoleTree D ctx gs T)
    (hroot : ctx'.rootHole = ctx.rootHole)
    (hload : ∀ g ∈ gs, ctx'.loadHole g.first = ctx.loadHole g.first) : HoleTree D ctx' gs T := by
  have hkeys : ∀ k ∈ T.keys, ctx'.loadHole k = ctx.loadHole k := fun k hk => by
    obtain ⟨g, hg, rfl⟩ := h.mem_keys.mp hk
    exact hload g hg
  refine ⟨⟨h.tree.toLinked815.congr hroot fun k hk => by rw [hkeys k hk], h.tree.allows,
    fun k hk => ?_⟩, h.nodes, h.asc, h.lt, fun g hg => by rw [hload g hg, h.len g hg], h.black⟩
  rw [hkeys k hk]
  exact h.tree.stale k hk

theorem HoleTree.store {n : ℕ} (h : HoleTree D ctx gs T)
    (hdisj : ∀ g ∈ gs, g.first + 8 ≤ a ∨ a + n ≤ g.first) (src : Mem) (s : ℕ) :
    HoleTree D { ctx with toPktBuf := ctx.store a src s n } gs T := by
  refine h.congr rfl fun g hg => Rb815ctx.loadHole_congr fun j hj => memcpy_of_notMem ?_
  have := hdisj g hg
  omega

/-- Taking out the bytes `a … b` and copying them from the packet. Outside of `D` everything else
stays as it was. -/
theorem rb815AddData_spec (hD : ∀ i, rb815Null ≤ i → D i) (pkt : Packet) (mod : Bool)
    (h : HoleTree D ctx gs T) (ha : a % 8 = 0) (hab : a ≤ b + 1) (hb : b + 1 ≤ 65535)
    (hin : ∀ i, a ≤ i → i ≤ b → D i → InGaps gs i) (hslot : InGaps gs (b + 1) → Slot D (b + 1)) :
    ∃ ctx' gs' T', rb815AddData ctx pkt a b mod = some ctx' ∧ HoleTree D ctx' gs' T' ∧
      (∀ i, InGaps gs' i ↔ InGaps gs i ∧ ¬(a ≤ i ∧ i ≤ b)) ∧
      ctx'.mostRestrictingLast = ctx.mostRestrictingLast ∧ ctx'.hdrLen = ctx.hdrLen ∧
      ctx'.pktHeader = ctx.pktHeader ∧
      (∀ s ∈ ctx'.stores, s ∈ ctx.stores ∨ StoresUnless (SafeToFill T (holesFilled a b gs)) s) ∧
      FillStep a b gs T T' ∧
      ∀ i, ¬D i ∨ a ≤ i ∧ i ≤ b →
        (a ≤ i ∧ i ≤ b ∧ ctx'.pkt i = pkt.data (ipPayload pkt.data ipOff + (i - a))) ∨
        ¬D i ∧ ctx'.pkt i = ctx.pkt i := by
  obtain ⟨ctx1, mod', gs', T', hadd, h1, hpoints, ht, hmod, hfill⟩ :=
    h.addData hD hab mod h.holesMet_lt hslot
  simp only [rb815AddData, hadd, bind_eq_bind, bind_some]
  cases mod' with
  | false =>
    refine ⟨ctx1, gs', T', rfl, h1, hpoints, ht.last, ht.hdrLen, ht.pktHeader, ht.stores, hfill,
      fun i hi => .inr ?_⟩
    -- the bytes of the fragment had all arrived
    have hno : ¬D i := hi.elim id fun hi hd => (hmod rfl).2 i (hin i hi.1 hi.2 hd) hi
    exact ⟨hno, ht.pkt i hno⟩
  | true =>
    refine ⟨_, gs', T', rfl, h1.store (fun g hg => ?_) _ _, hpoints, ht.last, ht.hdrLen,
      ht.pktHeader, fun s hs => ?_, hfill, fun i hi => ?_⟩
    · have hal := (h1.slot hg).aligned
      have hout := ((hpoints g.first).mp ⟨g, hg, le_rfl, h1.asc.1 g hg⟩).2
      omega
    · rcases List.mem_cons.mp hs with rfl | hs
      · exact .inr (.inl (by simp only [FitsPkt, pktSize]; omega))
      · exact ht.stores s hs
    · by_cases hab' : a ≤ i ∧ i ≤ b
      · exact .inl ⟨hab'.1, hab'.2, memcpy_of_mem (by omega) (by omega)⟩
      · have hno : ¬D i := hi.resolve_right hab'
        exact .inr ⟨hno, (memcpy_of_notMem (by omega)).trans (ht.pkt i hno)⟩

/-- What taking out the nodes with `taken` does to the balance of the tree: it is kept if none is
taken out, it is there if all are taken out, and if one is taken out, it is lost exactly if this
node needs the repair that is left out. -/
structure TakeStep (taken : ℕ → Prop) (T T' : CTree ℕ) : Prop where
  none : (∀ k ∈ T.keys, ¬taken k) → T.IsRb → T'.IsRb
  all : (∀ k ∈ T.keys, taken k) → T'.IsRb
  one : ∀ k ∈ T.keys, (∀ j ∈ T.keys, taken j ↔ j = k) → T.IsRb → (T'.IsRb ↔ ¬T.NeedsRepair k)

theorem TakeStep.congr {taken taken' : ℕ → Prop} {T' : CTree ℕ} (h : TakeStep taken T T')
    (hiff : ∀ k ∈ T.keys, taken' k ↔ taken k) : TakeStep taken' T T' :=
  ⟨fun hno => h.none fun k hk => (hiff k hk).not.mp (hno k hk), fun hall => h.all fun k hk =>
    (hiff k hk).mp (hall k hk),
    fun k hk hone => h.one k hk fun j hj => (hiff j hj).symm.trans (hone j hj)⟩

theorem TakeStep.refl {taken : ℕ → Prop} (hno : ∀ k, ¬taken k) : TakeStep taken T T := by
  refine ⟨fun _ => id, fun hall => ?_, fun k hk hone => absurd ((hone k hk).mpr rfl) (hno k)⟩
  cases T with
  | leaf => exact ⟨rfl, 0, rfl⟩
  | node b l k r => exact absurd (hall k (by simp [CTree.keys])) (hno k)

theorem HoleTree.isRb_of_forall (h : HoleTree D ctx gs T) (hno : ∀ i, ¬InGaps gs i) : T.IsRb := by
  have hnil := h.asc.eq_nil_iff.mpr hno
  have hlist := h.nodes
  rw [hnil] at hlist
  cases T with
  | leaf => exact ⟨rfl, 0, rfl⟩
  | node b l k r => simp [CTree.toList] at hlist

theorem FillStep.takeStep {D' : ℕ → Prop} {ctx' : Rb815ctx} {gs' : List Hole} {T' : CTree ℕ}
    (h : HoleTree D ctx gs T) (h' : HoleTree D' ctx' gs' T')
    (hpoints : ∀ i, InGaps gs' i ↔ InGaps gs i ∧ ¬(a ≤ i ∧ i ≤ b)) (hfill : FillStep a b gs T T') :
    TakeStep (fun k => ∃ g ∈ gs, g.first = k ∧ FilledBy a b g) T T' := by
  have hkey : ∀ g ∈ gs, g.first ∈ T.keys := fun g hg => h.mem_keys.mpr ⟨g, hg, rfl⟩
  refine ⟨fun hno => hfill.none fun g hg hin => hno _ (hkey g hg) ⟨g, hg, rfl, hin⟩,
    fun hall => h'.isRb_of_forall fun i hi => ?_, ?_⟩
  · obtain ⟨⟨g, hg, h1, h2⟩, hout⟩ := (hpoints i).mp hi
    obtain ⟨g', hg', he, h3, h4⟩ := hall _ (hkey g hg)
    obtain rfl := h.asc.eq_of_first hg' hg he
    omega
  · intro k hk hone
    obtain ⟨g, hg, rfl, hin⟩ := (hone k hk).mpr rfl
    refine hfill.one g hg hin fun g' hg' hin' => ?_
    exact h.asc.eq_of_first hg' hg ((hone _ (hkey g' hg')).mp ⟨g', hg', rfl, hin'⟩)

/-- The nodes `rest` behind the end `b` of the datagram are taken out first, and then those of the
holes that the last fragment fills. -/
theorem FillStep.takeStep_lower {D1 D2 : ℕ → Prop} {ctx1 ctx2 : Rb815ctx} {gs1 gs2 : List Hole}
    {T1 T2 : CTree ℕ} {rest : List ℕ} (hfill : FillStep a b gs1 T1 T2) (h : HoleTree D ctx gs T)
    (h₁ : HoleTree D1 ctx1 gs1 T1) (h₂ : HoleTree D2 ctx2 gs2 T2) (hab : a ≤ b)
    (hnodes : gs.map Gap.first = gs1.map Gap.first ++ rest) (hrest : ∀ k ∈ rest, b < k)
    (hle : ∀ i, InGaps gs1 i → i ≤ b)
    (hpoints : ∀ i, InGaps gs2 i ↔ InGaps gs1 i ∧ ¬(a ≤ i ∧ i ≤ b)) (hT : rest = [] → T1 = T)
    (hrb : ∀ k, rest = [k] → T.IsRb → (T1.IsRb ↔ ¬T.NeedsRepair k)) : TakeStep (a ≤ ·) T T2 := by
  have hkeys : ∀ k, k ∈ T.keys ↔ k ∈ gs1.map Gap.first ∨ k ∈ rest := fun k => by
    rw [← CTree.mem_toList, h.nodes, hnodes, List.mem_append]
  have hfirst : ∀ g ∈ gs1, g.first ∈ T.keys :=
    fun g hg => (hkeys _).mpr (.inl (List.mem_map_of_mem hg))
  have hend : ∀ g ∈ gs1, g.last ≤ b := fun g hg => hle _ ⟨g, hg, h₁.asc.1 g hg, le_rfl⟩
  have hnd := h.asc.nodup_first
  rw [hnodes, List.nodup_append] at hnd
  refine ⟨fun hno hb => ?_, fun hall => h₂.isRb_of_forall fun i hi => ?_, fun k hk hone hb => ?_⟩
  · have hnil : rest = [] := List.eq_nil_iff_forall_not_mem.mpr fun k hk =>
      hno k ((hkeys k).mpr (.inr hk)) (hab.trans (hrest k hk).le)
    exact hfill.none (fun g hg hin => hno _ (hfirst g hg) hin.1) (hT hnil ▸ hb)
  · obtain ⟨⟨g, hg, h1, h2⟩, hout⟩ := (hpoints i).mp hi
    have h3 := hall _ (hfirst g hg)
    have h4 := hend g hg
    omega
  · have hrk : ∀ j ∈ rest, j = k := fun j hj =>
      (hone j ((hkeys j).mpr (.inr hj))).mp (hab.trans (hrest j hj).le)
    cases rest with
    | nil =>
      -- the node is that of a hole which the fragment fills
      obtain rfl := hT rfl
      obtain ⟨g, hg, rfl⟩ := List.mem_map.mp (((hkeys k).mp hk).resolve_right (by simp))
      refine hfill.one g hg ⟨(hone _ hk).mpr rfl, hend g hg⟩ (fun g' hg' hin => ?_) hb
      exact h₁.asc.eq_of_first hg' hg ((hone _ (hfirst g' hg')).mp hin.1)
    | cons j rest =>
      obtain rfl := hrk j (by simp)
      have hnil : rest = [] := List.eq_nil_iff_forall_not_mem.mpr fun i hi => by
        obtain rfl := hrk i (by simp [hi])
        exact (List.nodup_cons.mp hnd.2.1).1 hi
      subst hnil
      refine (hfill.same (fun g hg hin => ?_) fun g hg => ?_).trans (hrb j rfl hb)
      · exact hnd.2.2 _ (List.mem_map_of_mem hg) j (by simp) ((hone _ (hfirst g hg)).mp hin.1)
      · have := hend g hg
        omega

/-- The bytes that the descriptors of the holes may lie in, and those behind the buffer. -/
def Unused (fs : List Frag) (i : ℕ) : Prop := BlockMissing fs i ∨ rb815Null ≤ i

/-- The state of the engine after the accepted fragments `fs`. -/
structure Rb815Inv (fs : List Frag) (ctx : Rb815ctx) (gs : List Hole) (T : CTree ℕ) : Prop where
  last : ctx.mostRestrictingLast = mostRestrictingLast fs
  tree : HoleTree (Unused fs) ctx gs T
  points : ∀ i, InGaps gs i ↔ BlockMissing fs i ∧ i ≤ 65534
  ends : ∀ f ∈ fs, f.last ≤ 65534

namespace Rb815Inv

variable {fs : List Frag} {f : Frag}

theorem of_points (hlast : ctx.mostRestrictingLast = mostRestrictingLast fs)
    (h : HoleTree D ctx gs T) (hpoints : ∀ i, InGaps gs i ↔ BlockMissing fs i ∧ i ≤ 65534)
    (hends : ∀ f ∈ fs, f.last ≤ 65534) : Rb815Inv fs ctx gs T := by
  refine ⟨hlast, ⟨⟨⟨h.tree.rep, fun k hk => ?_⟩, h.tree.allows, h.tree.stale⟩, h.nodes, h.asc, h.lt,
    h.len, h.black⟩, hpoints, hends⟩
  obtain ⟨g, hg, rfl⟩ := h.mem_keys.mp hk
  have hs := h.slot hg
  have hal := hs.aligned
  have hfirst := (hpoints g.first).mp ⟨g, hg, le_rfl, h.asc.1 g hg⟩
  exact ⟨hal, hs.fits, fun j h1 h2 => .inl (hfirst.1.block (by omega))⟩

theorem unused (i : ℕ) (hi : rb815Null ≤ i) : Unused fs i := .inr hi

theorem inGaps (h : Rb815Inv fs ctx gs T) {i : ℕ} (hi : i ≤ 65534) (hu : Unused fs i) :
    InGaps gs i := by
  refine (h.points i).mpr ⟨hu.resolve_right fun hn => ?_, hi⟩
  rw [rb815Null] at hn
  omega

theorem slot {i : ℕ} (hi : BlockMissing fs i) (hal : i % 8 = 0) (hfits : i + 8 ≤ 65535) :
    Slot (Unused fs) i :=
  ⟨hal, hfits, fun _ _ _ => .inl (hi.block (by omega))⟩

theorem ends_append (h : Rb815Inv fs ctx gs T) (hf : f.last ≤ 65534) :
    ∀ f' ∈ fs ++ [f], f'.last ≤ 65534 := by
  intro f' hf'
  rcases List.mem_append.mp hf' with hm | hm
  · exact h.ends f' hm
  · rw [List.mem_singleton.mp hm]
    exact hf

theorem takeHeader (h : Rb815Inv fs ctx gs T) (pkt : Packet) :
    Rb815Inv fs { ctx with toPktBuf := ctx.takeHeader pkt } gs T := by
  refine ⟨by simpa using h.last, h.tree.congr rfl fun g _ => ?_, h.points, h.ends⟩
  exact Rb815ctx.loadHole_congr fun j _ => by simp

end Rb815Inv

variable {fs : List Frag}

theorem rb815_lower_spec {f : Frag} (pkt : Packet) (h : Rb815Inv fs ctx gs T)
    (hf : f.more = false ∧ mostRestrictingLast fs > f.last) (hfit : f.last ≤ 65534) :
    ∃ ctx' gs' T', (Rb815ctx.repairMostRestricting { ctx with mostRestrictingLast := f.last } >>=
        fun ctx => rb815AddData ctx pkt f.first f.last true) = some ctx' ∧
      Rb815Inv (fs ++ [f]) ctx' gs' T' ∧ ctx'.hdrLen = ctx.hdrLen ∧
      ctx'.pktHeader = ctx.pktHeader ∧
      (∀ s ∈ ctx'.stores, s ∈ ctx.stores ∨
        StoresUnless (SafeToFill T ((gs.map Gap.first).countP (f.first ≤ ·))) s) ∧
      TakeStep (f.first ≤ ·) T T' ∧
      ∀ i, ¬Unused fs i ∨ f.Has i →
        (f.Has i ∧ ctx'.pkt i = pkt.data (ipPayload pkt.data ipOff + (i - f.first))) ∨
        ¬Unused fs i ∧ ctx'.pkt i = ctx.pkt i := by
  have hfle := f.le
  have h0 : HoleTree (Unused fs) { ctx with mostRestrictingLast := f.last } gs T :=
    h.tree.congr rfl fun _ _ => rfl
  obtain ⟨ctx1, gs1, T1, rest, hclip, h₁, hpts1, hnodes, hrest, ht, hT, hrb1⟩ :=
    h0.repairMostRestricting Rb815Inv.unused
  have hmem : ∀ i, InGaps gs1 i ↔ (BlockMissing fs i ∧ i ≤ 65534) ∧ i ≤ f.last := fun i => by
    rw [hpts1, h.points]
  obtain ⟨ctx2, gs2, T2, hadd, h₂, hpts2, hlast, hhl, hhdr, hstores, hfill, hdata⟩ :=
    rb815AddData_spec Rb815Inv.unused pkt true h₁ f.aligned (Nat.le_succ_of_le hfle) (by omega)
      (fun i _ hi hd => (hpts1 i).mpr ⟨h.inGaps (by omega) hd, hi⟩)
      (fun hi => by have := (hmem _).mp hi; omega)
  -- the nodes taken out are those at or behind the first byte of the fragment
  have hcount : holesFilled f.first f.last gs1 + rest.length ≤
      (gs.map Gap.first).countP (f.first ≤ ·) := by
    have hr : rest.countP (f.first ≤ ·) = rest.length := List.countP_eq_length.mpr fun k hk =>
      decide_eq_true (hfle.trans (hrest k hk).le)
    rw [hnodes, List.countP_append, hr, List.countP_map]
    refine Nat.add_le_add_right (List.countP_mono_left fun g _ hg => ?_) _
    rw [decide_eq_true_eq] at hg
    exact decide_eq_true hg.1
  have hsafe : SafeToFill T ((gs.map Gap.first).countP (f.first ≤ ·)) →
      SafeToFill T rest.length ∧ SafeToFill T1 (holesFilled f.first f.last gs1) := by
    rintro (hn | ⟨hrb, hn⟩)
    · exact ⟨.inl (by omega), .inl (by omega)⟩
    · refine ⟨.inr ⟨hrb, by omega⟩, ?_⟩
      cases rest with
      | nil => exact .inr ⟨hT rfl ▸ hrb, by simpa using hcount.trans hn⟩
      | cons k rest => exact .inl (by rw [List.length_cons] at hcount; omega)
  have hst : ∀ s ∈ ctx2.stores, s ∈ ctx.stores ∨
      StoresUnless (SafeToFill T ((gs.map Gap.first).countP (f.first ≤ ·))) s := by
    intro s hs
    rcases hstores s hs with hs | hs
    · exact (ht.stores s hs).imp_right fun hs => hs.mono fun hp => (hsafe hp).1
    · exact .inr (hs.mono fun hp => (hsafe hp).2)
  have htake : TakeStep (f.first ≤ ·) T T2 :=
    hfill.takeStep_lower h.tree h₁ h₂ hfle hnodes hrest (fun i hi => ((hpts1 i).mp hi).2) hpts2 hT
      hrb1
  refine ⟨ctx2, gs2, T2, ?_, ?_, hhl.trans ht.hdrLen, hhdr.trans ht.pktHeader, hst, htake,
    fun i hi => ?_⟩
  · simp only [hclip, bind_eq_bind, bind_some]
    exact hadd
  · refine .of_points ?_ h₂ (fun i => ?_) (h.ends_append hfit)
    · rw [hlast, ht.last, mostRestrictingLast_append_singleton, if_pos hf]
    · rw [hpts2, hmem, blockMissing_append_lower hf]
      tauto
  · rcases hdata i hi with ⟨h1, h2, h3⟩ | ⟨h1, h2⟩
    · exact .inl ⟨⟨h1, h2⟩, h3⟩
    · exact .inr ⟨h1, h2.trans (ht.pkt i h1)⟩

theorem rb815_round_spec {f : Frag} (pkt : Packet) (h : Rb815Inv fs ctx gs T)
    (hf : ¬(f.more = false ∧ mostRestrictingLast fs > f.last)) (h7 : 7 ≤ f.last)
    (hfit : InBuffer (mostRestrictingLast fs) f) :
    ∃ ctx' gs' T', rb815AddData ctx pkt f.first (roundLast f.last) false = some ctx' ∧
      Rb815Inv (fs ++ [f]) ctx' gs' T' ∧ ctx'.hdrLen = ctx.hdrLen ∧
      ctx'.pktHeader = ctx.pktHeader ∧
      (∀ s ∈ ctx'.stores, s ∈ ctx.stores ∨
        StoresUnless (SafeToFill T (holesFilled f.first (roundLast f.last) gs)) s) ∧
      TakeStep (fun k => ∃ g ∈ gs, g.first = k ∧ FilledBy f.first (roundLast f.last) g) T T' ∧
      ∀ i, ¬Unused fs i ∨ f.first ≤ i ∧ i ≤ roundLast f.last →
        (f.Has i ∧ ctx'.pkt i = pkt.data (ipPayload pkt.data ipOff + (i - f.first))) ∨
        ¬Unused fs i ∧ ctx'.pkt i = ctx.pkt i := by
  have hal := f.aligned
  have hle := f.le
  have hround : roundLast f.last + 1 = (f.last + 1) / 8 * 8 := by rw [roundLast]; omega
  obtain ⟨hfit1, hfit2⟩ := hfit
  have hmrl := mostRestrictingLast_le fs
  have hslot : InGaps gs (roundLast f.last + 1) → Slot (Unused fs) (roundLast f.last + 1) := by
    intro hi
    have hb := ((h.points _).mp hi).1
    have hblock := hb.block_le
    refine Rb815Inv.slot hb (by omega) ?_
    rcases hfit2 with h2 | h2 | h2
    · omega
    · have : mostRestrictingLast fs ≤ f.last := by
        by_contra hc
        exact hf ⟨h2, by omega⟩
      omega
    · omega
  obtain ⟨ctx2, gs2, T2, hadd, h₂, hpts2, hlast, hhl, hhdr, hstores, hfill, hdata⟩ :=
    rb815AddData_spec Rb815Inv.unused pkt false h.tree hal
      (show f.first ≤ roundLast f.last + 1 by omega) (by omega)
      (fun i _ hi hd => h.inGaps (by omega) hd) hslot
  refine ⟨ctx2, gs2, T2, hadd, ?_, hhl, hhdr, hstores, hfill.takeStep h.tree h₂ hpts2,
    fun i hi => ?_⟩
  · refine .of_points ?_ h₂ (fun i => ?_) (h.ends_append hfit1)
    · rw [hlast, h.last, mostRestrictingLast_append_singleton, if_neg hf]
    · rw [hpts2, h.points, blockMissing_append_round hf, ← hround, Nat.lt_succ_iff]
      tauto
  · rcases hdata i hi with ⟨h1, h2, h3⟩ | h
    · exact .inl ⟨⟨h1, by omega⟩, h3⟩
    · exact .inr h

/-- The packet takes the node at `loc` out of the tree: it fills the hole, or the hole begins behind
the new end of the datagram. -/
def Fills (ctx : Rb815ctx) (pkt : Packet) (loc : ℕ) : Prop :=
  pkt.dataFirst ≤ loc ∧
    (pkt.moreFrags = false ∧ ctx.mostRestrictingLast > pkt.dataLast ∨
      loc + (ctx.loadHole loc).len ≤ roundLast pkt.dataLast + 1)

instance (ctx : Rb815ctx) (pkt : Packet) (loc : ℕ) : Decidable (Fills ctx pkt loc) :=
  inferInstanceAs (Decidable (_ ∧ _))

/-- The packet gets to the descriptors and takes the node at `loc` out of the tree. -/
def TakesOut (ctx : Rb815ctx) (pkt : Packet) (loc : ℕ) : Prop :=
  pkt.accept.isSome = true ∧
    (pkt.moreFrags = false ∧ ctx.mostRestrictingLast > pkt.dataLast ∨ 7 ≤ pkt.dataLast) ∧
    Fills ctx pkt loc

instance TakesOut.decidable (ctx : Rb815ctx) (pkt : Packet) (loc : ℕ) :
    Decidable (TakesOut ctx pkt loc) :=
  inferInstanceAs (Decidable (_ ∧ _))

/-- The packet takes no node out of the tree, or the tree is a red-black tree and the packet takes
one node out of it. -/
def FillsSafely (ctx : Rb815ctx) (pkt : Packet) : Prop :=
  ∀ T, Rep ctx.view T → SafeToFill T (T.toList.countP (TakesOut ctx pkt ·))

theorem Rb815Inv.not_unused (h : Rb815Inv fs ctx gs T) {i : ℕ} (hi : i ≤ mostRestrictingLast fs)
    (hno : ¬BlockMissing fs i) : ¬Unused fs i := by
  rintro (hm | hn)
  · exact hno hm
  · -- no fragment ends at byte 65535
    rw [rb815Null] at hn
    refine hno ⟨hi, ?_⟩
    rintro ⟨f, hf, hhas⟩
    have := h.ends f hf
    have hle := mostRestrictingLast_le fs
    rw [blockEnd, Frag.Has] at hhas
    omega

theorem Rb815Inv.safeToFill {pkt : Packet} {n : ℕ} (h : Rb815Inv fs ctx gs T)
    (hn : gs.countP (fun g => TakesOut ctx pkt g.first) = n) (hs : FillsSafely ctx pkt) :
    SafeToFill T n := by
  have := hs T h.tree.tree.rep
  rw [h.tree.nodes, List.countP_map] at this
  exact hn ▸ this

/-- One packet keeps `Rb815Inv`. -/
theorem rb815ctxAdd_inv (h : Rb815Inv fs ctx gs T) (pkt : Packet)
    (hfit : ∀ f, pkt.accept = some f → InBuffer (mostRestrictingLast fs) f) :
    ∃ ctx' gs' T', rb815ctxAdd ctx pkt = some ctx' ∧
      Rb815Inv (fs ++ pkt.accept.toList) ctx' gs' T' ∧
      BufStep fs pkt ctx.toPktBuf ctx'.toPktBuf ∧
      (∀ s ∈ ctx'.stores, s ∈ ctx.stores ∨ StoresUnless (FillsSafely ctx pkt) s) ∧
      TakeStep (TakesOut ctx pkt) T T' := by
  cases hbad : pkt.badLength with
  | true =>
    have hacc : pkt.accept = none := (Packet.accept_eq_none_iff pkt).mpr (.inl hbad)
    exact ⟨ctx, gs, T, by simp [rb815ctxAdd, hbad], by simpa [hacc] using h,
      .of_badLength h.last hbad, fun s hs => .inl hs, .refl fun k => by simp [TakesOut, hacc]⟩
  | false =>
    have h0 := h.takeHeader pkt
    rw [rb815ctxAdd, hbad, if_neg (by simp)]
    cases hacc : pkt.accept with
    | none =>
      have hlast : pkt.dataLast > 65535 :=
        ((Packet.accept_eq_none_iff pkt).mp hacc).resolve_left (by simp [hbad])
      exact ⟨_, gs, T, if_pos hlast, by simpa using h0, .of_rejected h.last hbad hacc,
        fun s hs => .inl (by simpa using hs), .refl fun k => by simp [TakesOut, hacc]⟩
    | some f =>
      obtain ⟨-, hle, h1, h2, h3⟩ := (Packet.accept_eq_some_iff pkt).mp hacc
      have hb := hfit f hacc
      simp only [← h1, ← h2, ← h3, PktBuf.takeHeader_mostRestrictingLast, h.last, toList_some]
      rw [if_neg (by have := f.lt; omega)]
      split_ifs with hf h7
      · obtain ⟨ctx', gs', T', hctx', h', hhl, hhdr, hst, htake, hdata⟩ :=
          rb815_lower_spec pkt h0 hf hb.1
        refine ⟨ctx', gs', T', hctx', h', .of_accept hbad hacc h.last h'.last hhl hhdr
          fun i hi hno => ?_, fun s hs => ?_, htake.congr fun k _ => ?_⟩
        · rw [mostRestrictingLast_append_singleton, if_pos hf] at hi
          have := hdata i ?_
          · refine this.imp_right fun ⟨hu, he⟩ => ⟨fun hm => hu (.inl hm), he.trans ?_⟩
            exact congrFun (PktBuf.takeHeader_pkt ..) i
          · by_cases hhas : f.Has i
            · exact .inr hhas
            · exact .inl (h.not_unused (by omega) fun hm =>
                hno ((blockMissing_append_lower hf i).mpr ⟨⟨hm, hi⟩, hhas⟩))
        · refine (hst s hs).imp (fun hs => by simpa using hs) fun hs => hs.mono (h.safeToFill ?_)
          rw [List.countP_map]
          refine List.countP_congr fun g _ => ?_
          simp [TakesOut, Fills, hacc, ← h1, ← h2, ← h3, h.last, hf]
        · simp [TakesOut, Fills, hacc, ← h1, ← h2, ← h3, h.last, hf]
      · -- a fragment inside the first block is not taken in
        have hpoints : ∀ i, BlockMissing (fs ++ [f]) i ↔ BlockMissing fs i := fun i => by
          rw [blockMissing_append_round hf]
          exact and_iff_left (by omega)
        have hl : mostRestrictingLast (fs ++ [f]) = mostRestrictingLast fs := by
          rw [mostRestrictingLast_append_singleton, if_neg hf]
        refine ⟨_, gs, T, rfl, .of_points (h0.last.trans hl.symm) h0.tree
          (fun i => (h.points i).trans (by rw [hpoints])) (h.ends_append hb.1),
          .of_accept hbad hacc h.last (h0.last.trans hl.symm) rfl rfl fun i _ hno =>
            .inr ⟨fun hm => hno ((hpoints i).mpr hm), by simp⟩,
              fun s hs => .inl (by simpa using hs),
          .refl fun k hk => ?_⟩
        rw [TakesOut, ← h2, ← h3, h.last] at hk
        exact hk.2.1.elim hf (by omega)
      · obtain ⟨ctx', gs', T', hctx', h', hhl, hhdr, hst, htake, hdata⟩ :=
          rb815_round_spec pkt h0 hf (by omega) hb
        refine ⟨ctx', gs', T', hctx', h', .of_accept hbad hacc h.last h'.last hhl hhdr
          fun i hi hno => ?_, fun s hs => ?_, htake.congr fun k hk => ?_⟩
        · rw [mostRestrictingLast_append_singleton, if_neg hf] at hi
          have := hdata i ?_
          · refine this.imp_right fun ⟨hu, he⟩ => ⟨fun hm => hu (.inl hm), he.trans ?_⟩
            exact congrFun (PktBuf.takeHeader_pkt ..) i
          · by_cases hin : f.first ≤ i ∧ i ≤ roundLast f.last
            · exact .inr hin
            · refine .inl (h.not_unused hi fun hm =>
                hno ((blockMissing_append_round hf i).mpr ⟨hm, fun hc => hin ?_⟩))
              rw [roundLast]
              omega
        · refine (hst s hs).imp (fun hs => by simpa using hs) fun hs => hs.mono (h.safeToFill ?_)
          refine List.countP_congr fun g hg => ?_
          have hgl := h.tree.asc.1 g hg
          simp only [TakesOut, Fills, hacc, ← h1, ← h2, ← h3, h.last, hf, h.tree.len g hg, false_or,
            isSome_some, true_and, decide_eq_true_eq]
          omega
        · obtain ⟨g, hg, rfl⟩ := h.tree.mem_keys.mp hk
          have hgl := h.tree.asc.1 g hg
          have hin : (∃ g' ∈ gs, g'.first = g.first ∧ FilledBy f.first (roundLast f.last) g') ↔
              FilledBy f.first (roundLast f.last) g := by
            refine ⟨?_, fun hin => ⟨g, hg, rfl, hin⟩⟩
            rintro ⟨g', hg', he, hin⟩
            exact h.tree.asc.eq_of_first hg' hg he ▸ hin
          rw [hin]
          simp only [TakesOut, Fills, FilledBy, hacc, ← h1, ← h2, ← h3, h.last, hf, h.tree.len g hg,
            false_or, isSome_some, true_and]
          omega

/-! ## Whole runs -/

theorem rb815ctxInitFast_inv (ctx : Rb815ctx) :
    Rb815Inv [] (rb815ctxInitFast ctx) [⟨0, 65534⟩] (.node true .leaf 0 .leaf) := by
  have hmiss : ∀ i, BlockMissing [] i ↔ i ≤ 65535 := fun i => by simp [BlockMissing]
  have hload : (rb815ctxInitFast ctx).loadHole 0 =
      { Rb815hole.zero with len := 65535, isBlack := true } := Rb815ctx.loadHole_storeHole_self
  have h0 : IsLoc 0 := ⟨rfl, by decide⟩
  have hlinked : Linked815 (Unused []) (rb815ctxInitFast ctx) (.node true .leaf 0 .leaf) := by
    refine ⟨⟨rfl, ⟨?_, trivial, trivial⟩, by simp [CTree.keys]⟩, fun k hk => ?_⟩
    · rw [Rb815ctx.view_heap h0, hload]
      rfl
    · obtain rfl : k = 0 := by simpa [CTree.keys] using hk
      exact ⟨rfl, by decide, fun j _ hj => .inl ((hmiss j).mpr (by omega))⟩
  refine ⟨rfl, .of_linked hlinked rfl (by simp) (by simp) ?_ rfl ?_, fun i => ?_, by simp⟩
  · simp only [List.mem_singleton, forall_eq, hload]
    decide
  · simp only [List.mem_singleton, forall_eq, hload]
    exact fun d _ => .inr fun _ _ _ => .inl (by cases d <;> rfl)
  · rw [hmiss]
    simp [Gap.Has]
    omega

theorem rb815ctxRun_append (ctx : Rb815ctx) (pkts : List Packet) (pkt : Packet) :
    rb815ctxRun ctx (pkts ++ [pkt]) = (rb815ctxRun ctx pkts).bind fun c => rb815ctxAdd c pkt := by
  simp [rb815ctxRun, List.foldlM_append]

/-- Every packet of the run meets `P` in the state that it finds. -/
def EachPacket (P : Rb815ctx → Packet → Prop) (ctx : Rb815ctx) (pkts : List Packet) : Prop :=
  ∀ pre pkt post, pkts = pre ++ pkt :: post → ∀ c, rb815ctxRun ctx pre = some c → P c pkt

/-- Every packet of the run finds the tree such that it `FillsSafely`. -/
def RunFillsSafely (ctx : Rb815ctx) (pkts : List Packet) : Prop := EachPacket FillsSafely ctx pkts

theorem runFillsSafely_append_singleton {pkts : List Packet} {pkt : Packet}
    (h : RunFillsSafely ctx (pkts ++ [pkt])) :
    RunFillsSafely ctx pkts ∧ ∀ c, rb815ctxRun ctx pkts = some c → FillsSafely c pkt := by
  refine ⟨fun pre p post hp => h pre p (post ++ [pkt]) ?_, h pkts pkt [] rfl⟩
  rw [hp, List.append_assoc, List.cons_append]

/-- Packets that stay in the buffer. The bytes in the buffer are those of a payload `src` if the
packets carry it. -/
theorem rb815ctxRun_inv (ctx : Rb815ctx) {pkts : List Packet} (hfit : FitsBuffer pkts) :
    ∃ ctx' gs T, rb815ctxRun ctx pkts = some ctx' ∧
      Rb815Inv (pkts.filterMap Packet.accept) ctx' gs T ∧
      (∀ src, (∀ pkt ∈ pkts, ∀ f, pkt.accept = some f → ∀ i, f.Has i →
        pkt.data (ipPayload pkt.data ipOff + (i - f.first)) = src i) →
        BufInv src pkts ctx'.toPktBuf) ∧
      (RunFillsSafely ctx pkts → ∀ s ∈ ctx'.stores, FitsPkt s) := by
  induction pkts using List.reverseRecOn with
  | nil =>
    refine ⟨_, _, _, rfl, rb815ctxInitFast_inv ctx, fun _ _ => .init rfl rfl, fun _ => ?_⟩
    simp [rb815ctxInitFast, Rb815ctx.storeHole, PktBuf.store, FitsPkt, pktSize]
  | append_singleton pkts pkt ih =>
    obtain ⟨hfit', hpkt⟩ := fitsBuffer_append_singleton hfit
    obtain ⟨ctx1, gs1, T1, hrun, h1, hbuf1, hst1⟩ := ih hfit'
    obtain ⟨ctx2, gs2, T2, hadd, h2, hstep, hst2, -⟩ := rb815ctxAdd_inv h1 pkt hpkt
    refine ⟨ctx2, gs2, T2, by rw [rb815ctxRun_append, hrun]; exact hadd, ?_,
      fun src hsrc => (hbuf1 src fun p hp => hsrc p (by simp [hp])).step hstep (hsrc pkt (by simp)),
      fun hsafe s hs => ?_⟩
    · cases hacc : pkt.accept <;> simpa [hacc] using h2
    · obtain ⟨hsafe', hlast⟩ := runFillsSafely_append_singleton hsafe
      rcases hst2 s hs with hs | hs | ⟨hno, -⟩
      · exact hst1 hsafe' s hs
      · exact hs
      · exact absurd (hlast ctx1 hrun) hno

/-- The engine is complete exactly if no byte up to the end is missing. -/
theorem Rb815Inv.complete_iff (h : Rb815Inv fs ctx gs T) :
    rb815ctxComplete ctx = true ↔ ∀ i ≤ mostRestrictingLast fs, Covered fs i := by
  rw [rb815ctxComplete, decide_eq_true_eq, h.tree.rootHole_eq_null, h.tree.asc.eq_nil_iff,
    forall_covered_iff]
  refine ⟨fun hno i hm => ?_, fun hno i hi => hno i ((h.points i).mp hi).1⟩
  -- the last byte of a missing block may be 65535
  have hle := hm.1.trans (mostRestrictingLast_le fs)
  exact hno (i / 8 * 8) ((h.points _).mpr ⟨hm.block (by omega), by omega⟩)

end Pptk.Ipfrag
