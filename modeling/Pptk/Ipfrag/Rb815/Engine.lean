import Pptk.Ipfrag.Rb815.Add

/-!
# What holds of the in-buffer engines

The results of the modules on the RFC 815 engine and the in-buffer red-black tree
engine for whole sequences of packets.

Main results: `rb815_round_trip`, `rb815_never_aborts`, `rb815_balance` and `in_buffer_engines_fit`.
-/

namespace Pptk.Ipfrag

open Pptk.Lib Pptk.Iphdr Pptk.Rbtree List Option

/-! ## Fragmenting and reassembling -/

/-- For every frame that `fragment4` accepts and every sequence of fragments made of it, over a
buffer with arbitrary contents: the engine does not abort, it reports complete exactly when the
fragments cover the whole payload, and it then returns the original frame. -/
theorem rb815_round_trip {e : Endian} {ether : Mem} {sz : ℕ} (hc : CanonicalFrame e ether sz)
    (hpay : 0 < payloadLen ether sz) (fed : List Fragment)
    (hfed : ∀ frag ∈ fed, Produced e ether sz frag) (ctx : Rb815ctx) :
    ∃ ctx', rb815ctxRun ctx (Pieces.packets fed) = some ctx' ∧
      (rb815ctxComplete ctx' = true ↔ ∀ i < payloadLen ether sz, ∃ frag ∈ fed, frag.Has i) ∧
      (rb815ctxComplete ctx' = true →
        Restores ether sz fun alloc => rb815ctxReassemble e alloc ctx') := by
  have h : Pieces ether sz fed := pieces_of_produced hc.lt hfed
  obtain ⟨ctx', gs, T, hrun, hinv, hbuf, -⟩ := rb815ctxRun_inv ctx (h.fitsBuffer hc.lt hc.hdrLen_ge)
  have hbuf := hbuf (fun i => ether (14 + ipHdrLen ether ipOff + i)) fun pkt hp f hacc i hi =>
    h.payload_eq hc.lt hc.hdrLen_ge hp hacc hi
  have hiff := hinv.complete_iff
  refine ⟨ctx', hrun, ?_, fun hdone => hbuf.restores hc h (hiff.mp hdone)⟩
  rw [hiff, ← Pieces.accepted, h.complete_iff hc.lt hc.hdrLen_ge, CoverPayload, and_iff_right hpay]

/-- A context of zeros. -/
def zeroRb815ctx : Rb815ctx where
  mostRestrictingLast := 0
  hdrLen := 0
  direction := .uplink
  pktHeader := fun _ => 0
  pkt := fun _ => 0
  stores := []
  rootHole := 0

/-- The sample frame comes back from its fragments. -/
theorem rb815_round_trip_sampleFrame :
    0 < payloadLen sampleFrame 50 ∧ ∃ ctx', rb815ctxRun zeroRb815ctx (Pieces.packets sampleFed) =
      some ctx' ∧ rb815ctxComplete ctx' = true ∧
      Restores sampleFrame 50 fun alloc => rb815ctxReassemble .little alloc ctx' := by
  have hcov := sampleFed_cover
  obtain ⟨ctx', hrun, hiff, hrest⟩ := rb815_round_trip sampleFrame_canonical hcov.1
    sampleFed sampleFed_spec.2 zeroRb815ctx
  have htrue := hiff.mpr hcov.2
  exact ⟨hcov.1, ctx', hrun, htrue, hrest htrue⟩

/-! ## Arbitrary packets -/

/-- Every sequence of packets whose accepted fragments end at byte 65514 or earlier is taken in
without an `abort()`. If every packet finds a red-black tree and takes one hole out of it, or takes
none out, no descriptor is stored at the location that stands for none. -/
theorem rb815_never_aborts (ctx : Rb815ctx) (pkts : List Packet)
    (hend : ∀ f ∈ pkts.filterMap Packet.accept, f.last ≤ 65514) :
    ∃ ctx', rb815ctxRun ctx pkts = some ctx' ∧
      (RunFillsSafely ctx pkts → (rb815Null, 8) ∉ ctx'.stores) := by
  obtain ⟨ctx', gs, T, hrun, -, -, hstores⟩ := rb815ctxRun_inv ctx (fitsBuffer_of_last_le hend)
  refine ⟨ctx', hrun, fun hsafe hmem => ?_⟩
  have := hstores hsafe _ hmem
  simp [FitsPkt, pktSize] at this

/-- Payload blocks `a … b`, with more fragments to come. -/
def blocksPacket (a b : ℕ) : Packet where
  direction := .uplink
  sz := 34 + 8 * (b + 1 - a)
  data := fun i => if i = 14 then 0x45 else if i = 17 then .ofNat (20 + 8 * (b + 1 - a))
    else if i = 20 then 0x20 else if i = 21 then .ofNat a else 0

/-- The node at `loc` is the only one that the packet takes out of the tree. -/
def TakesOnly (ctx : Rb815ctx) (pkt : Packet) (T : CTree ℕ) (loc : ℕ) : Prop :=
  loc ∈ T.keys ∧ ∀ k ∈ T.keys, TakesOut ctx pkt k ↔ k = loc

instance TakesOnly.decidable (ctx : Rb815ctx) (pkt : Packet) (T : CTree ℕ) (loc : ℕ) :
    Decidable (TakesOnly ctx pkt T loc) :=
  inferInstanceAs (Decidable (_ ∧ _))

theorem exists_of_any {P : Rb815ctx → Prop} [DecidablePred P] {o : Option Rb815ctx}
    (h : o.any (fun c => decide (P c)) = true) : ∃ c, o = some c ∧ P c := by
  obtain ⟨c, hc, hP⟩ := (any_eq_true _ _).mp h
  exact ⟨c, hc, of_decide_eq_true hP⟩

theorem eachPacket_pair {P : Rb815ctx → Packet → Prop} {ctx c1 : Rb815ctx} {p q : Packet}
    (hp : P (rb815ctxInitFast ctx) p) (hc1 : rb815ctxRun ctx [p] = some c1) (hq : P c1 q) :
    EachPacket P ctx [p, q] := by
  intro pre pkt post hpkts c hc
  match pre, hpkts with
  | [], hpkts =>
    obtain rfl := some.inj hc
    exact (cons.inj hpkts).1 ▸ hp
  | [p], hpkts =>
    obtain ⟨rfl, hrest⟩ := cons.inj hpkts
    obtain rfl := some.inj (hc.symm.trans hc1)
    exact (cons.inj hrest).1 ▸ hq
  | p :: q :: pre, hpkts => simp at hpkts

/-- A block with a hole in front of it, and the packet that fills this hole. -/
def twoBlocks : List Packet := [blocksPacket 2 2, blocksPacket 0 1]

/-- The first of the `twoBlocks` takes no node out of the tree. -/
theorem twoBlocks_fst : ∀ k ∈ (CTree.node true .leaf 0 .leaf).keys,
    ¬TakesOut (rb815ctxInitFast zeroRb815ctx) (blocksPacket 2 2) k := by decide +kernel

/-- The second of the `twoBlocks` takes the root out, whose only child is red. -/
theorem twoBlocks_snd : ∃ c, rb815ctxRun zeroRb815ctx [blocksPacket 2 2] = some c ∧
    Rep c.view (.node true .leaf 0 (.node false .leaf 24 .leaf)) ∧
      TakesOnly c (blocksPacket 0 1) (.node true .leaf 0 (.node false .leaf 24 .leaf)) 0 :=
  exists_of_any (show (rb815ctxRun zeroRb815ctx [blocksPacket 2 2]).any _ = true by decide +kernel)

theorem twoBlocks_fillsSafely : RunFillsSafely zeroRb815ctx twoBlocks := by
  obtain ⟨c1, hc1, hT1, hmem, honly⟩ := twoBlocks_snd
  refine eachPacket_pair (fun T hT => .inl ?_) hc1 fun T hT => .inr ⟨?_, ?_⟩
  · obtain rfl := hT.unique (rb815ctxInitFast_inv zeroRb815ctx).tree.tree.rep
    simpa [CTree.toList, CTree.keys] using twoBlocks_fst
  · obtain rfl := hT.unique hT1
    exact ⟨rfl, 1, 0, rfl, rfl, by simp [CTree.Rb, CTree.isRed]⟩
  · obtain rfl := hT.unique hT1
    have h0 : TakesOut c1 (blocksPacket 0 1) 0 := (honly 0 hmem).mpr rfl
    have h24 : ¬TakesOut c1 (blocksPacket 0 1) 24 := (honly 24 (by decide)).not.mpr (by decide)
    simp [CTree.toList, h0, h24]

/-- The hole that the second packet fills is taken out of the tree. -/
theorem rb815_never_aborts_twoBlocks :
    (∀ f ∈ twoBlocks.filterMap Packet.accept, f.last ≤ 65514) ∧
      RunFillsSafely zeroRb815ctx twoBlocks ∧
      ∃ ctx', rb815ctxRun zeroRb815ctx twoBlocks = some ctx' ∧ (rb815Null, 8) ∉ ctx'.stores := by
  have hend : ∀ f ∈ twoBlocks.filterMap Packet.accept, f.last ≤ 65514 := by decide
  obtain ⟨ctx', hrun, hnull⟩ := rb815_never_aborts zeroRb815ctx twoBlocks hend
  exact ⟨hend, twoBlocks_fillsSafely, ctx', hrun, hnull twoBlocks_fillsSafely⟩

/-- Nine packets after which the deletions have stored a descriptor at the location that stands for
none. -/
theorem rb815_stores_at_null :
    let pkts := [blocksPacket 20 20, blocksPacket 18 18, blocksPacket 16 16, blocksPacket 14 14,
      blocksPacket 12 12, blocksPacket 13 17, blocksPacket 10 10, blocksPacket 8 8,
      blocksPacket 9 19]
    (∀ f ∈ pkts.filterMap Packet.accept, f.last ≤ 65514) ∧
      (rb815ctxRun zeroRb815ctx pkts).any (fun ctx => decide ((rb815Null, 8) ∈ ctx.stores)) =
        true := by
  refine ⟨by decide, by decide +kernel⟩

/-! ## Balance -/

/-- The descriptors are linked as a search tree with a black root. -/
def IsSearchTree (ctx : Rb815ctx) : Prop :=
  ∃ T, Rep ctx.view T ∧ T.toList.Pairwise (· < ·) ∧ T.isRed = false

/-- The descriptors are linked as a search tree that is a red-black tree. -/
def IsBalanced (ctx : Rb815ctx) : Prop :=
  ∃ T, Rep ctx.view T ∧ T.toList.Pairwise (· < ·) ∧ T.IsRb

/-- The packet takes no node out of the tree, or all nodes, or one. -/
def TakesFew (ctx : Rb815ctx) (pkt : Packet) : Prop :=
  ∀ T, Rep ctx.view T → (∀ k ∈ T.keys, ¬TakesOut ctx pkt k) ∨ (∀ k ∈ T.keys, TakesOut ctx pkt k) ∨
    ∃ loc, TakesOnly ctx pkt T loc

/-- If the packet takes one node out of the tree, this does not need the repair of a black node
without children. -/
def TakesUnrepaired (ctx : Rb815ctx) (pkt : Packet) : Prop :=
  ∀ T, Rep ctx.view T → ∀ loc, TakesOnly ctx pkt T loc → ¬T.NeedsRepair loc

theorem rb815ctxRun_takeStep (ctx : Rb815ctx) {pre : List Packet} {pkt : Packet}
    (hend : ∀ f ∈ (pre ++ [pkt]).filterMap Packet.accept, f.last ≤ 65514) :
    ∃ c c' T T', rb815ctxRun ctx pre = some c ∧ rb815ctxRun ctx (pre ++ [pkt]) = some c' ∧
      Rep c.view T ∧
      Rep c'.view T' ∧ T'.toList.Pairwise (· < ·) ∧ TakeStep (TakesOut c pkt) T T' := by
  obtain ⟨hfit, hpkt⟩ := fitsBuffer_append_singleton (fitsBuffer_of_last_le hend)
  obtain ⟨c, gs, T, hrun, h, -⟩ := rb815ctxRun_inv ctx hfit
  obtain ⟨c', gs', T', hadd, h', -, -, htake⟩ := rb815ctxAdd_inv h pkt hpkt
  refine ⟨c, c', T, T', hrun, ?_, h.tree.tree.rep, h'.tree.tree.rep, ?_, htake⟩
  · rw [rb815ctxRun_append, hrun]
    exact hadd
  · rw [h'.tree.nodes]
    exact h'.tree.asc.pairwise_first

/-- In every run with accepted fragments that end at byte 65514 or earlier, the packets are taken in
and the descriptors stay linked as a search tree with a black root. If each packet takes out no
node, all nodes or one, and in the last case one that needs no repair, the tree stays a red-black
tree. If the tree stays a red-black tree, no packet takes out just one node and that one needs a
repair. -/
theorem rb815_balance (ctx : Rb815ctx) (pkts : List Packet)
    (hend : ∀ f ∈ pkts.filterMap Packet.accept, f.last ≤ 65514) :
    (∀ pre, pre <+: pkts → ∃ c, rb815ctxRun ctx pre = some c ∧ IsSearchTree c) ∧
    (EachPacket TakesFew ctx pkts → EachPacket TakesUnrepaired ctx pkts →
      ∀ pre c, pre <+: pkts → rb815ctxRun ctx pre = some c → IsBalanced c) ∧
    ((∀ pre c, pre <+: pkts → rb815ctxRun ctx pre = some c → IsBalanced c) →
      EachPacket TakesUnrepaired ctx pkts) := by
  have hpre : ∀ pre, pre <+: pkts → ∀ f ∈ pre.filterMap Packet.accept, f.last ≤ 65514 :=
    fun pre hp f hf => hend f ((hp.sublist.filterMap _).subset hf)
  refine ⟨fun pre hp => ?_, fun hfew hun pre => ?_,
    fun hall pre pkt post hpkts c hc T hT loc hloc hneeds => ?_⟩
  · obtain ⟨c, gs, T, hrun, h, -⟩ := rb815ctxRun_inv ctx (fitsBuffer_of_last_le (hpre pre hp))
    refine ⟨c, hrun, T, h.tree.tree.rep, ?_, h.tree.black⟩
    rw [h.tree.nodes]
    exact h.tree.asc.pairwise_first
  · induction pre using reverseRecOn with
    | nil =>
      intro c _ hrun
      obtain rfl := some.inj hrun
      exact ⟨_, (rb815ctxInitFast_inv ctx).tree.tree.rep, by simp [CTree.toList], rfl, 1, 0, rfl,
        rfl, rfl⟩
    | append_singleton pre pkt ih =>
      intro c' hp hrun'
      obtain ⟨c, c2, T, T', hrun, hrun2, hT, hT', hlt, htake⟩ :=
        rb815ctxRun_takeStep ctx (hpre _ hp)
      obtain rfl := some.inj (hrun2.symm.trans hrun')
      obtain ⟨T0, hT0, -, hrb⟩ := ih c ((prefix_append _ _).trans hp) hrun
      obtain rfl := hT.unique hT0
      refine ⟨T', hT', hlt, ?_⟩
      obtain ⟨post, hpost⟩ := hp
      have hpkts : pkts = pre ++ pkt :: post := by rw [← hpost, append_assoc]; rfl
      rcases hfew pre pkt post hpkts c hrun T hT with hno | hall | ⟨loc, hloc⟩
      · exact htake.none hno hrb
      · exact htake.all hall
      · exact (htake.one loc hloc.1 hloc.2 hrb).mpr (hun pre pkt post hpkts c hrun T hT loc hloc)
  · have hp : pre ++ [pkt] <+: pkts := ⟨post, by rw [hpkts, append_assoc]; rfl⟩
    obtain ⟨c1, c2, T1, T2, hrun, hrun2, hT1, hT2, -, htake⟩ := rb815ctxRun_takeStep ctx (hpre _ hp)
    obtain rfl := some.inj (hrun.symm.trans hc)
    obtain rfl := hT.unique hT1
    obtain ⟨T0, hT0, -, hrb⟩ := hall pre c1 ((prefix_append _ _).trans hp) hrun
    obtain rfl := hT.unique hT0
    obtain ⟨T3, hT3, -, hrb2⟩ := hall _ c2 hp hrun2
    obtain rfl := hT2.unique hT3
    exact (htake.one loc hloc.1 hloc.2 hrb).mp hrb2 hneeds

/-- The second packet fills the first of two holes, whose node has a red child. -/
theorem rb815_balance_redChild :
    (∀ f ∈ twoBlocks.filterMap Packet.accept, f.last ≤ 65514) ∧
      EachPacket TakesFew zeroRb815ctx twoBlocks ∧
      EachPacket TakesUnrepaired zeroRb815ctx twoBlocks ∧
      ∃ c, rb815ctxRun zeroRb815ctx twoBlocks = some c ∧ IsBalanced c := by
  have hend : ∀ f ∈ twoBlocks.filterMap Packet.accept, f.last ≤ 65514 := by decide
  have h1 := twoBlocks_fst
  obtain ⟨c1, hc1, hT1, h2⟩ := twoBlocks_snd
  have hT0 := (rb815ctxInitFast_inv zeroRb815ctx).tree.tree.rep
  have hfew : EachPacket TakesFew zeroRb815ctx twoBlocks := by
    refine eachPacket_pair (fun T hT => .inl ?_) hc1 fun T hT => .inr (.inr ⟨0, ?_⟩)
    · exact hT.unique hT0 ▸ h1
    · exact hT.unique hT1 ▸ h2
  have hun : EachPacket TakesUnrepaired zeroRb815ctx twoBlocks := by
    refine eachPacket_pair (fun T hT loc hloc => ?_) hc1 fun T hT loc hloc => ?_
    · obtain rfl := hT.unique hT0
      exact absurd ((hloc.2 loc hloc.1).mpr rfl) (h1 loc hloc.1)
    · obtain rfl := hT.unique hT1
      obtain rfl := (h2.2 loc hloc.1).mp ((hloc.2 loc hloc.1).mpr rfl)
      decide
  obtain ⟨hrun, hbal, -⟩ := rb815_balance zeroRb815ctx twoBlocks hend
  obtain ⟨c, hc, -⟩ := hrun twoBlocks prefix_rfl
  exact ⟨hend, hfew, hun, c, hc, hbal hfew hun twoBlocks c prefix_rfl hc⟩

/-- After three holes have been split off, the node of the first hole is black and has no child. The
fourth packet fills this hole; then the root has no left child, and two black nodes in a row on its
right. -/
theorem rb815_loses_balance :
    let pkts := [blocksPacket 2 2, blocksPacket 4 4, blocksPacket 6 6, blocksPacket 0 1]
    (∀ f ∈ pkts.filterMap Packet.accept, f.last ≤ 65514) ∧
      ∃ c, rb815ctxRun zeroRb815ctx pkts = some c ∧ ¬IsBalanced c := by
  refine ⟨by decide, ?_⟩
  obtain ⟨c, hc, hT⟩ := exists_of_any
    (P := fun c => Rep c.view
      (.node true .leaf 24 (.node true .leaf 40 (.node false .leaf 56 .leaf))))
    (show (rb815ctxRun zeroRb815ctx
      [blocksPacket 2 2, blocksPacket 4 4, blocksPacket 6 6, blocksPacket 0 1]).any _ = true by
        decide +kernel)
  refine ⟨c, hc, ?_⟩
  rintro ⟨T', hT', -, -, n, hn⟩
  obtain rfl := hT.unique hT'
  simp [CTree.Rb] at hn

/-! ## The end of the buffer -/

/-- If every accepted fragment is `InBuffer` when it arrives, every fragment, every descriptor of a
hole and every store lies inside the buffer, and no hole has the index that stands for none. For the
stores of the tree engine it takes in addition that no packet takes out several nodes at once, or
one of a tree that has lost its balance: the deletions may then store at the index that stands for
none. -/
theorem in_buffer_engines_fit {pkts : List Packet} (hfit : FitsBuffer pkts) :
    (∀ f ∈ pkts.filterMap Packet.accept, f.last + 1 ≤ pktSize) ∧
    (∀ ctx, ∃ ctx' gs, rfc815ctxRun ctx pkts = some ctx' ∧
      HoleList (BlockMissing (pkts.filterMap Packet.accept)) ctx' gs ∧
      (∀ g ∈ gs, g.first + 8 ≤ pktSize ∧ g.first ≠ rfc815Null) ∧ ∀ s ∈ ctx'.stores, FitsPkt s) ∧
    ∀ ctx, ∃ ctx' T, rb815ctxRun ctx pkts = some ctx' ∧ Rep ctx'.view T ∧
      (∀ k ∈ T.keys, k + 8 ≤ pktSize ∧ k ≠ rb815Null) ∧
      (RunFillsSafely ctx pkts → ∀ s ∈ ctx'.stores, FitsPkt s) := by
  refine ⟨fun f hf => ?_, fun ctx => ?_, fun ctx => ?_⟩
  · obtain ⟨pkt, hp, hacc⟩ := mem_filterMap.mp hf
    obtain ⟨pre, post, rfl⟩ := append_of_mem hp
    exact Nat.succ_le_succ (hfit pre pkt post rfl f hacc).1
  · obtain ⟨ctx', gs, hrun, h⟩ := rfc815ctxRun_inv ctx hfit
    refine ⟨ctx', gs, hrun, h.list, fun g hg => ?_, h.stores⟩
    have := (h.list.slot g hg).fits
    exact ⟨this, fun he => by rw [he, rfc815Null] at this; omega⟩
  · obtain ⟨ctx', gs, T, hrun, h, -, hstores⟩ := rb815ctxRun_inv ctx hfit
    exact ⟨ctx', T, hrun, h.tree.tree.rep, fun k hk => ⟨(h.tree.tree.slot k hk).fits,
      (h.tree.tree.isLoc hk).ne_null⟩, hstores⟩

theorem in_buffer_engines_fit_twoBlocks :
    FitsBuffer twoBlocks ∧ RunFillsSafely zeroRb815ctx twoBlocks ∧
      ∃ ctx', rb815ctxRun zeroRb815ctx twoBlocks = some ctx' ∧ ∀ s ∈ ctx'.stores, FitsPkt s := by
  have hfit : FitsBuffer twoBlocks := fitsBuffer_of_last_le (by decide)
  obtain ⟨ctx', T, hrun, -, -, hstores⟩ := (in_buffer_engines_fit hfit).2.2 zeroRb815ctx
  exact ⟨hfit, twoBlocks_fillsSafely, ctx', hrun, hstores twoBlocks_fillsSafely⟩

/-- Eight bytes of payload, with the flags and the offset in the bytes `hi` and `lo`. -/
def endPacket (hi lo : UInt8) : Packet where
  direction := .uplink
  sz := 42
  data := fun i => if i = 14 then 0x45 else if i = 17 then 28 else if i = 20 then hi
    else if i = 21 then lo else 0

/-- After the bytes 65520 to 65527, with more to come, both engines have stored a descriptor at
65528. The last fragment with the bytes 65528 to 65535 is accepted and its bytes are stored, up to
the one behind the end of the buffer. -/
theorem in_buffer_engines_overrun :
    ((rfc815ctxRun zeroRfc815ctx [endPacket 0x3f 0xfe]).any
        (fun ctx => decide (ctx.lastHole = 65528 ∧ (65528, 8) ∈ ctx.stores)) = true ∧
      (rb815ctxRun zeroRb815ctx [endPacket 0x3f 0xfe]).any
        (fun ctx => decide ((65528, 8) ∈ ctx.stores)) = true) ∧
    ((endPacket 0x1f 0xff).accept.map Frag.last = some 65535 ∧
      (rfc815ctxRun zeroRfc815ctx [endPacket 0x1f 0xff]).any
        (fun ctx => decide ((65528, 8) ∈ ctx.stores)) = true ∧
      (rb815ctxRun zeroRb815ctx [endPacket 0x1f 0xff]).any
        (fun ctx => decide ((65528, 8) ∈ ctx.stores)) = true) ∧
    ¬FitsPkt (65528, 8) := by
  refine ⟨⟨by decide +kernel, by decide +kernel⟩, ⟨by decide, by decide +kernel, by decide +kernel⟩,
    ?_⟩
  simp [FitsPkt, pktSize]

end Pptk.Ipfrag
