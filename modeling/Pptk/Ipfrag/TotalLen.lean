import Pptk.Ipfrag.Rb815.Engine

/-!
# The total length of a reassembled packet

All engines write the header length plus the end of the datagram plus one into the
16-bit total length field, and take the same number, without the reduction, as the
size of the packet behind the Ethernet header. The checks on a fragment bound its
last byte without the header.

Main result: `totalLen_agrees_iff`.
-/

namespace Pptk.Ipfrag

open Pptk.Lib Pptk.Iphdr Pptk.Rbtree Function List Option

/-! ## The number written and the size -/

variable {e : Endian} {alloc : Option Packet} {r : Packet} {b : PktBuf} {fuel a : ℕ}
  {mod mod' overlap : Bool} {pkt : Packet} {heap : Heap RbholeLoc} {rbhole : RbholeLoc → Hole}
  {ipv6 : Bool} {pkts : List Packet}

/-- The total length and the size, for the engines with a packet list. -/
theorem reassembleList_totalLen {w mrl : ℕ} {p : Packet} {rest : List Packet}
    (h : reassembleList e w alloc (p :: rest) mrl = some (some r)) :
    ipTotalLen r.data ipOff = (ipHdrLen p.data ipOff + mrl + 1) % 65536 ∧
      r.sz - 14 = ipHdrLen p.data ipOff + mrl + 1 := by
  cases alloc with
  | none => simp [reassembleList, reassembleSteps] at h
  | some pkt =>
    simp only [reassembleList, reassembleSteps, bind_eq_bind, map_eq_some_iff,
      bind_eq_some_iff, some.injEq] at h
    obtain ⟨-, ⟨m, hm, rfl⟩, r, hr, rfl⟩ := h
    obtain rfl := some.inj hr
    obtain ⟨h20, hip, htotal⟩ := rewriteHeader_eq_some hm
    have hoff : ipOff = 14 := rfl
    have hcopy : m ipOff = p.data ipOff := by
      rw [hip, memcpy_of_mem (by omega) (by rw [etherHdrLen]; omega)]
      rfl
    -- the payload is copied behind the header
    have hpay : ipOff + 20 ≤ ipPayload m ipOff := by
      rw [ipPayload, ipHdrLen_congr hcopy]
      omega
    refine ⟨?_, by simp only [Reassembly.packet, etherHdrLen]; omega⟩
    rw [← htotal, ipTotalLen, ipTotalLen]
    apply hdrGet16n_congr
    all_goals exact exec_reassembleCopy_of_lt (by omega) _ _

/-- The total length and the size, for the engines with a buffer. -/
theorem PktBuf.reassemble_totalLen {hdrLen : ℕ} (hb : b.hdrLen = 14 + hdrLen) (hlt : hdrLen < 65536)
    (h : b.reassemble e alloc = some (some r)) :
    ipTotalLen r.data ipOff = (hdrLen + b.mostRestrictingLast + 1) % 65536 ∧
      r.sz - 14 = hdrLen + b.mostRestrictingLast + 1 := by
  cases alloc with
  | none => simp [PktBuf.reassemble] at h
  | some pkt =>
    have hlen : (b.hdrLen + 65536 - 14) % 65536 = hdrLen := by omega
    simp only [PktBuf.reassemble, hlen, bind_eq_bind, bind_eq_some_iff, some.injEq] at h
    obtain ⟨m, hm, rfl⟩ := h
    obtain ⟨h20, -, htotal⟩ := rewriteHeader_eq_some hm
    have hoff : ipOff = 14 := rfl
    refine ⟨?_, by simp only; omega⟩
    rw [← htotal, ipTotalLen, ipTotalLen]
    apply hdrGet16n_congr
    all_goals exact memcpy_of_notMem (by omega)

/-! ## What the red-black tree engine keeps -/

/-- The packets and the end of the datagram, which the functions on the hole tree leave alone. -/
def RbExplicitReassctx.kept (ctx : RbExplicitReassctx) : List (ℕ × Packet) × ℕ × Bool :=
  (ctx.packetList, ctx.mostRestrictingLast, ctx.ipv6)

theorem repairMostRestricting_kept {ctx ctx' : RbExplicitReassctx}
    (h : repairMostRestricting fuel ctx = some ctx') : ctx'.kept = ctx.kept := by
  induction fuel generalizing ctx with
  | zero => simp [repairMostRestricting] at h
  | succ fuel ih =>
    rw [repairMostRestricting] at h
    obtain ⟨o, -, h⟩ := bind_eq_some_iff.mp h
    cases o with
    | none => rw [← some.inj h]
    | some node =>
      simp only at h
      split_ifs at h
      · obtain ⟨t, -, h⟩ := bind_eq_some_iff.mp h
        exact (ih h).trans rfl
      all_goals rw [← some.inj h]
      rfl

theorem trimHole_kept {back : RbExplicitReassctx → Option (RbExplicitReassctx × Bool × Bool)}
    {b : ℕ} {node : RbholeLoc} {ctx ctx' : RbExplicitReassctx}
    (hback : ∀ {c}, back c = some (ctx', mod', overlap) →
      ctx'.kept = c.kept ∧ mod' = true ∧ (c.ipv6 = false → overlap = false))
    (h : trimHole back a b node ctx mod = some (ctx', mod', overlap)) :
    ctx'.kept = ctx.kept ∧ overlap = false ∧
      (mod = true ∨ (ctx.rbhole node).last ≤ b ∧ (ctx.rbhole node).last + 1 > a ∨
        (ctx.rbhole node).first ≥ a ∧ (ctx.rbhole node).first < b + 1 → mod' = true) := by
  simp only [trimHole] at h
  split_ifs at h with h1 h6 h3 h2 h6
  · obtain ⟨hk, hm, ho⟩ := hback h
    exact ⟨hk, ho (by simpa using h6), fun _ => hm⟩
  · simp only [some.injEq, Prod.mk.injEq] at h
    obtain ⟨rfl, rfl, rfl⟩ := h
    exact ⟨rfl, rfl, fun _ => rfl⟩
  · simp only [some.injEq, Prod.mk.injEq] at h
    obtain ⟨rfl, rfl, rfl⟩ := h
    exact ⟨rfl, rfl, fun _ => rfl⟩
  · obtain ⟨hk, hm, ho⟩ := hback h
    exact ⟨hk, ho (by simpa using h6), fun _ => hm⟩
  · simp only [some.injEq, Prod.mk.injEq] at h
    obtain ⟨rfl, rfl, rfl⟩ := h
    exact ⟨rfl, rfl, fun _ => rfl⟩
  · simp only [some.injEq, Prod.mk.injEq] at h
    obtain ⟨rfl, rfl, rfl⟩ := h
    exact ⟨rfl, rfl, fun hm => hm.resolve_right fun hc => hc.elim h1 h2⟩

/-- Adding data changes the holes only, and reports overlaps only for IPv6. -/
theorem addData_kept {b : ℕ} {new : RbholeLoc} {ctx ctx' : RbExplicitReassctx}
    (h : addData a b new fuel ctx mod = some (ctx', mod', overlap)) :
    ctx'.kept = ctx.kept ∧ (mod = true → mod' = true) ∧ (ctx.ipv6 = false → overlap = false) := by
  induction fuel generalizing ctx mod with
  | zero => simp [addData] at h
  | succ fuel ih =>
    have hback : ∀ {c : RbExplicitReassctx}, addData a b new fuel c true =
      some (ctx', mod', overlap) →
        ctx'.kept = c.kept ∧ mod' = true ∧ (c.ipv6 = false → overlap = false) := fun hc => by
      obtain ⟨hk, hm, ho⟩ := ih hc
      exact ⟨hk, hm rfl, ho⟩
    rw [addData] at h
    obtain ⟨o, -, h⟩ := bind_eq_some_iff.mp h
    cases o with
    | none =>
      simp only [some.injEq, Prod.mk.injEq] at h
      obtain ⟨rfl, rfl, rfl⟩ := h
      exact ⟨rfl, id, id⟩
    | some node =>
      simp only at h
      split_ifs at h with h1 h2 h3 h4
      · simp only [some.injEq, Prod.mk.injEq] at h
        obtain ⟨rfl, rfl, rfl⟩ := h
        exact ⟨rfl, id, fun h6 => by simp [h6] at h1⟩
      · obtain ⟨c, hc, h⟩ := bind_eq_some_iff.mp h
        obtain ⟨t, -, hc⟩ := bind_eq_some_iff.mp hc
        simp only [some.injEq, Prod.mk.injEq] at h hc
        obtain ⟨rfl, rfl, rfl⟩ := h
        exact ⟨by rw [← hc]; rfl, fun _ => rfl, fun _ => rfl⟩
      · obtain ⟨t, -, h⟩ := bind_eq_some_iff.mp h
        obtain ⟨hk, hm, ho⟩ := hback h
        exact ⟨hk, fun _ => hm, ho⟩
      · obtain ⟨t, -, h⟩ := bind_eq_some_iff.mp h
        obtain ⟨hk, ho, hm⟩ := trimHole_kept hback h
        exact ⟨hk, fun _ => hm (.inl rfl), fun _ => ho⟩
      · obtain ⟨hk, ho, hm⟩ := trimHole_kept hback h
        exact ⟨hk, fun hmod => hm (.inl hmod), fun _ => ho⟩

/-- A fragment inside of the root hole brings new data and is no overlap. -/
theorem addData_inside {b : ℕ} {new node : RbholeLoc} {ctx ctx' : RbExplicitReassctx}
    (hroot : ctx.holeTree.root = some node) (hfirst : (ctx.rbhole node).first ≤ a) (hab : a ≤ b)
    (hlast : b ≤ (ctx.rbhole node).last)
    (h : addData a b new fuel ctx mod = some (ctx', mod', overlap)) :
    mod' = true ∧ overlap = false := by
  cases fuel with
  | zero => simp [addData] at h
  | succ fuel =>
    have hback : ∀ {c : RbExplicitReassctx}, addData a b new fuel c true =
      some (ctx', mod', overlap) →
        ctx'.kept = c.kept ∧ mod' = true ∧ (c.ipv6 = false → overlap = false) := fun hc => by
      obtain ⟨hk, hm, ho⟩ := addData_kept hc
      exact ⟨hk, hm rfl, ho⟩
    have hfind : findHole ctx a b ctx.bound ctx.holeTree.root = some (some node) := by
      rw [hroot, RbExplicitReassctx.bound, findHole, if_neg (by omega), if_neg (by omega)]
    rw [addData, hfind] at h
    simp only [bind_eq_bind, bind_some] at h
    rw [if_neg (by omega)] at h
    split_ifs at h with hsplit hdel h6
    · obtain ⟨c, -, h⟩ := bind_eq_some_iff.mp h
      simp only [some.injEq, Prod.mk.injEq] at h
      exact ⟨h.2.1.symm, h.2.2.symm⟩
    · obtain ⟨t, -, h⟩ := bind_eq_some_iff.mp h
      obtain ⟨-, hm, ho⟩ := hback h
      exact ⟨hm, ho (by simpa using h6)⟩
    · obtain ⟨t, -, h⟩ := bind_eq_some_iff.mp h
      obtain ⟨-, ho, hm⟩ := trimHole_kept hback h
      exact ⟨hm (.inl rfl), ho⟩
    · obtain ⟨-, ho, hm⟩ := trimHole_kept hback h
      exact ⟨hm (by omega), ho⟩

theorem rbExplicitReassctxAdd_kept {ctx ctx' : RbExplicitReassctx} {o : Option Bool} {k : ℕ}
    (h : rbExplicitReassctxAdd ctx k pkt = some (ctx', o)) :
    ctx'.mostRestrictingLast = (match pkt.accept with
      | none => ctx.mostRestrictingLast
      | some f => if f.more = false ∧ ctx.mostRestrictingLast > f.last then f.last
        else ctx.mostRestrictingLast) ∧
    (ctx'.packetList = ctx.packetList ∨ ctx'.packetList = ctx.packetList ++ [(k, pkt)]) := by
  unfold rbExplicitReassctxAdd at h
  cases hacc : pkt.accept with
  | none =>
    simp only [hacc, some.injEq, Prod.mk.injEq] at h
    exact ⟨by rw [← h.1], .inl (by rw [← h.1])⟩
  | some f =>
    simp only [hacc] at h
    obtain ⟨c, hc, h⟩ := bind_eq_some_iff.mp h
    obtain ⟨⟨c', mod', overlap⟩, hc', h⟩ := bind_eq_some_iff.mp h
    have hk' := (addData_kept hc').1
    have hk : c.packetList = ctx.packetList ∧ c.mostRestrictingLast =
        if f.more = false ∧ ctx.mostRestrictingLast > f.last then f.last
        else ctx.mostRestrictingLast := by
      split_ifs at hc ⊢ with hend
      · have := repairMostRestricting_kept hc
        simp only [RbExplicitReassctx.kept, Prod.mk.injEq] at this
        exact ⟨this.1, this.2.1⟩
      · rw [← some.inj hc]
        exact ⟨rfl, rfl⟩
    simp only [RbExplicitReassctx.kept, Prod.mk.injEq] at hk'
    simp only at h
    split_ifs at h
    all_goals
      simp only [some.injEq, Prod.mk.injEq] at h
      rw [← h.1]
    · exact ⟨hk'.2.1.trans hk.2, .inr (by simp only; rw [hk'.1, hk.1])⟩
    · exact ⟨hk'.2.1.trans hk.2, .inl (hk'.1.trans hk.1)⟩

/-- The first packet that is accepted lies in the hole of the empty context, so it is kept, in both
modes. -/
theorem rbExplicitReassctxAdd_first {ctx ctx' : RbExplicitReassctx} {o : Option Bool} {k : ℕ}
    {f : Frag} (hacc : pkt.accept = some f)
    (hinit : rbExplicitReassctxInit heap rbhole ipv6 = some ctx)
    (h : rbExplicitReassctxAdd ctx k pkt = some (ctx', o)) : ctx'.packetList = [(k, pkt)] := by
  obtain ⟨t, ht, hrep⟩ := Rep.insert_empty (t := ⟨none, heap⟩) (k := RbholeLoc.firstHole)
    (rbHoleTreeCmp (update rbhole .firstHole ⟨0, 65535⟩)) rfl Nat.one_pos
  simp only [rbExplicitReassctxInit, ht, bind_eq_bind, bind_some, some.injEq] at hinit
  subst hinit
  simp only [rbExplicitReassctxAdd, hacc] at h
  obtain ⟨c, hc, h⟩ := bind_eq_some_iff.mp h
  obtain ⟨⟨c', mod', overlap⟩, hc', h⟩ := bind_eq_some_iff.mp h
  have hlt := f.lt
  have hle := f.le
  -- the hole is left as it is, or clipped to the end of the fragment
  have hhole : c.packetList = [] ∧ c.holeTree = t ∧ (c.rbhole .firstHole).first = 0 ∧
      f.last ≤ (c.rbhole .firstHole).last := by
    split_ifs at hc with hend
    · have hright : t.rightmost 2 = some (some .firstHole) := hrep.rightmost (by simp [CTree.keys])
      rw [RbExplicitReassctx.bound, length_nil, repairMostRestricting] at hc
      simp only [RbExplicitReassctx.bound, length_nil, hright, bind_eq_bind,
        bind_some, update_self] at hc
      rw [if_neg (by omega), if_pos hend.2] at hc
      rw [← some.inj hc]
      refine ⟨rfl, rfl, ?_, ?_⟩
      · simp [RbExplicitReassctx.setLast]
      · simp only [RbExplicitReassctx.setLast, update_self]
        omega
    · rw [← some.inj hc]
      refine ⟨rfl, rfl, by simp, ?_⟩
      simp only [update_self]
      omega
  obtain ⟨hnil, htree, hfirst, hlast⟩ := hhole
  have hroot : c.holeTree.root = some .firstHole := by rw [htree, hrep.root]; rfl
  obtain ⟨rfl, rfl⟩ := addData_inside hroot (by omega) hle hlast hc'
  have hk := congrArg Prod.fst (addData_kept hc').1
  simp only [Bool.not_false, Bool.and_self, if_true, some.injEq, Prod.mk.injEq] at h
  rw [← h.1]
  simp only [RbExplicitReassctx.kept] at hk
  rw [hk, hnil, nil_append]

theorem rbExplicitReassctxRun_append_singleton {ctx : RbExplicitReassctx}
    (h : rbExplicitReassctxRun heap rbhole ipv6 (pkts ++ [pkt]) = some ctx) :
    ∃ c o, rbExplicitReassctxRun heap rbhole ipv6 pkts = some c ∧
      rbExplicitReassctxAdd c pkts.length pkt = some (ctx, o) := by
  rw [rbExplicitReassctxRun] at h
  obtain ⟨c0, hinit, h⟩ := bind_eq_some_iff.mp h
  rw [zipIdx_append, foldlM_append] at h
  obtain ⟨c, hc, h⟩ := bind_eq_some_iff.mp h
  simp only [zipIdx_cons, zipIdx_nil, foldlM_cons, Nat.zero_add] at h
  obtain ⟨c', hadd, h⟩ := bind_eq_some_iff.mp h
  obtain ⟨⟨c'', o⟩, hpkt, rfl⟩ := map_eq_some_iff.mp hadd
  obtain rfl : c'' = ctx := some.inj h
  exact ⟨c, o, by rw [rbExplicitReassctxRun, hinit]; exact hc, hpkt⟩

theorem rbExplicitReassctxRun_keeps {ctx : RbExplicitReassctx}
    (hacc : ∀ p ∈ pkts, p.accept.isSome = true)
    (h : rbExplicitReassctxRun heap rbhole ipv6 pkts = some ctx) :
    ctx.mostRestrictingLast = mostRestrictingLast (pkts.filterMap Packet.accept) ∧
      (ctx.packetList.map Prod.snd).head? = pkts.head? := by
  induction pkts using reverseRecOn generalizing ctx with
  | nil =>
    rw [rbExplicitReassctxRun] at h
    obtain ⟨c0, hinit, h⟩ := bind_eq_some_iff.mp h
    rw [rbExplicitReassctxInit] at hinit
    obtain ⟨t, -, hinit⟩ := bind_eq_some_iff.mp hinit
    obtain rfl : c0 = ctx := some.inj h
    rw [← some.inj hinit]
    exact ⟨rfl, rfl⟩
  | append_singleton pkts pkt ih =>
    obtain ⟨c, o, hc, hadd⟩ := rbExplicitReassctxRun_append_singleton h
    obtain ⟨hlast, hhead⟩ := ih (fun p hp => hacc p (by simp [hp])) hc
    obtain ⟨hlast', hlist⟩ := rbExplicitReassctxAdd_kept hadd
    obtain ⟨f, hf⟩ := isSome_iff_exists.mp (hacc pkt (by simp))
    constructor
    · rw [hlast', hf, hlast]
      simp [hf, mostRestrictingLast_append_singleton]
    · cases pkts with
      | nil =>
        rw [rbExplicitReassctxRun] at hc
        obtain ⟨c0, hinit, hc⟩ := bind_eq_some_iff.mp hc
        obtain rfl : c0 = c := some.inj hc
        rw [rbExplicitReassctxAdd_first hf hinit hadd]
        rfl
      | cons p pkts =>
        rw [head?_cons] at hhead
        rcases hlist with hlist | hlist
        · rw [hlist, hhead]
          rfl
        · rw [hlist, map_append, head?_append, hhead]
          rfl

/-! ## What a sequence of packets keeps in the buffer -/

/-- The fields of the buffer that only `…ctx_add` itself writes. -/
def PktBuf.hdr (b : PktBuf) : ℕ × ℕ × Mem := (b.mostRestrictingLast, b.hdrLen, b.pktHeader)

@[simp] theorem PktBuf.hdr_store (b : PktBuf) (i : ℕ) (src : Mem) (s n : ℕ) :
    (b.store i src s n).hdr = b.hdr := rfl

namespace Rfc815ctx

variable {ctx ctx' : Rfc815ctx}

@[simp] theorem hdr_storeHole (i : ℕ) (hole : Rfc815hole) :
    (ctx.storeHole i hole).hdr = ctx.hdr := rfl

@[simp] theorem hdr_holenonptrSetPrev (i v : ℕ) : (ctx.holenonptrSetPrev i v).hdr = ctx.hdr := by
  unfold holenonptrSetPrev
  split_ifs <;> rfl

@[simp] theorem hdr_holenonptrSetNext (i v : ℕ) : (ctx.holenonptrSetNext i v).hdr = ctx.hdr := by
  unfold holenonptrSetNext
  split_ifs <;> rfl

@[simp] theorem hdr_deleteHole (hole : Rfc815hole) : (ctx.deleteHole hole).hdr = ctx.hdr := by
  simp [deleteHole]

theorem hdr_clipHoleList {fuel iter : ℕ} (h : clipHoleList fuel ctx iter = some ctx') :
    ctx'.hdr = ctx.hdr := by
  induction fuel generalizing ctx iter with
  | zero => simp [clipHoleList] at h
  | succ fuel ih =>
    simp only [clipHoleList] at h
    split_ifs at h
    · rw [some.inj h]
    all_goals simpa using ih h

theorem hdr_punchHoleList {dataFirst dataLast fuel iter : ℕ} {mod mod' : Bool}
    (h : punchHoleList dataFirst dataLast fuel ctx iter mod = some (ctx', mod')) :
    ctx'.hdr = ctx.hdr := by
  induction fuel generalizing ctx iter mod with
  | zero => simp [punchHoleList] at h
  | succ fuel ih =>
    simp only [punchHoleList] at h
    have hret : ∀ {c : Rfc815ctx} {b : Bool}, some (c, b) = some (ctx', mod') → c.hdr = ctx.hdr →
        ctx'.hdr = ctx.hdr := fun he hc => by
      rw [← hc, (Prod.mk.inj (some.inj he)).1]
    split_ifs at h
    · exact hret h rfl
    · exact hret h (by simp)
    · exact hret h (by simp)
    · exact hret h (by simp [moveHole])
    · exact hret h rfl
    · exact hret h (by simp [splitHoleList])
    all_goals simpa using ih h

end Rfc815ctx

namespace Rb815ctx

variable {ctx ctx' : Rb815ctx} {loc parentLoc : ℕ}

@[simp] theorem hdr_storeHole (i : ℕ) (hole : Rb815hole) :
    (ctx.storeHole i hole).hdr = ctx.hdr := rfl

@[simp] theorem hdr_storeIf (i : ℕ) (hole : Rb815hole) : (ctx.storeIf i hole).hdr = ctx.hdr := by
  unfold storeIf
  split_ifs <;> rfl

theorem hdr_rotate {d : Side} (h : ctx.rotate d loc = some ctx') : ctx'.hdr = ctx.hdr := by
  simp only [rotate] at h
  split_ifs at h
  obtain ⟨r, -, hr⟩ := bind_eq_some_iff.mp h
  rw [← some.inj hr]
  simp

theorem hdr_insertRotateInner {grandparentLoc loc' : ℕ}
    (h : ctx.insertRotateInner loc parentLoc grandparentLoc = some (ctx', loc')) :
    ctx'.hdr = ctx.hdr := by
  have hrot : ∀ {d : Side} {f : Rb815ctx → Option (Rb815ctx × ℕ)},
      (∀ c r, f c = some r → r.1 = c) → (ctx.rotate d parentLoc).bind f = some (ctx', loc') →
      ctx'.hdr = ctx.hdr := fun hf hb => by
    obtain ⟨c, hc, hr⟩ := bind_eq_some_iff.mp hb
    exact (congrArg (·.toPktBuf.hdr) (hf c _ hr)).trans (hdr_rotate hc)
  simp only [insertRotateInner] at h
  split_ifs at h
  · refine hrot (fun c r hr => ?_) h
    split_ifs at hr
    rw [← some.inj hr]
  · refine hrot (fun c r hr => ?_) h
    split_ifs at hr
    rw [← some.inj hr]
  · rw [← (Prod.mk.inj (some.inj h)).1]

theorem hdr_insertRotateOuter (h : ctx.insertRotateOuter loc = some ctx') : ctx'.hdr = ctx.hdr := by
  simp only [insertRotateOuter] at h
  split_ifs at h
  all_goals
    obtain ⟨c, hc, hr⟩ := bind_eq_some_iff.mp h
    rw [← some.inj hr]
    simpa using hdr_rotate hc

variable {fuel n1Loc n2Loc dataLast : ℕ}

theorem hdr_insertRepair (h : insertRepair fuel ctx loc = some ctx') : ctx'.hdr = ctx.hdr := by
  induction fuel generalizing ctx loc with
  | zero => simp [insertRepair] at h
  | succ fuel ih =>
    simp only [insertRepair] at h
    split_ifs at h
    · rw [← some.inj h]; rfl
    · rw [← some.inj h]
    · simp at h
    · obtain ⟨u, -, h⟩ := bind_eq_some_iff.mp h
      split_ifs at h
      · simpa using ih h
      · obtain ⟨⟨c, l⟩, hc, h⟩ := bind_eq_some_iff.mp h
        exact (hdr_insertRotateOuter h).trans (hdr_insertRotateInner hc)

theorem hdr_deleteCase6 (h : ctx.deleteCase6 loc parentLoc = some ctx') : ctx'.hdr = ctx.hdr := by
  obtain ⟨s, -, h⟩ := bind_eq_some_iff.mp h
  simp only at h
  split_ifs at h
  all_goals simpa using hdr_rotate h

theorem hdr_deleteRotate5 (h : ctx.deleteRotate5 loc parentLoc = some ctx') :
    ctx'.hdr = ctx.hdr := by
  obtain ⟨s, -, h⟩ := bind_eq_some_iff.mp h
  simp only at h
  split_ifs at h
  · simpa using hdr_rotate h
  · simpa using hdr_rotate h
  all_goals rw [← some.inj h]

theorem hdr_deleteCase4 (h : ctx.deleteCase4 loc parentLoc = some ctx') : ctx'.hdr = ctx.hdr := by
  obtain ⟨s, -, h⟩ := bind_eq_some_iff.mp h
  simp only at h
  split_ifs at h
  · rw [← some.inj h]
    simp
  · obtain ⟨c, hc, h⟩ := bind_eq_some_iff.mp h
    exact (hdr_deleteCase6 h).trans (hdr_deleteRotate5 hc)

theorem hdr_deleteRotate2 (h : ctx.deleteRotate2 loc parentLoc = some ctx') :
    ctx'.hdr = ctx.hdr := by
  obtain ⟨s, -, h⟩ := bind_eq_some_iff.mp h
  simp only at h
  split_ifs at h
  · simpa using hdr_rotate h
  · simpa using hdr_rotate h
  · rw [← some.inj h]

/-- The repair writes no header. -/
theorem hdr_deleteCase1 (h : deleteCase1 fuel ctx loc parentLoc = some ctx') :
    ctx'.hdr = ctx.hdr := by
  induction fuel generalizing ctx loc parentLoc with
  | zero => simp [deleteCase1] at h
  | succ fuel ih =>
    rw [deleteCase1] at h
    split_ifs at h
    · rw [← some.inj h]
    · obtain ⟨c, hc, h⟩ := bind_eq_some_iff.mp h
      rw [← hdr_deleteRotate2 hc]
      obtain ⟨s, -, h⟩ := bind_eq_some_iff.mp h
      simp only at h
      split_ifs at h
      · simpa using ih h
      · exact hdr_deleteCase4 h

@[simp] theorem hdr_unlink (childLoc : ℕ) : (ctx.unlink loc childLoc).1.hdr = ctx.hdr := by
  unfold unlink
  simp only
  split_ifs
  · exact hdr_storeIf _ _
  all_goals simp

theorem hdr_deleteOneChild (h : ctx.deleteOneChild fuel loc = some ctx') : ctx'.hdr = ctx.hdr := by
  simp only [deleteOneChild] at h
  split_ifs at h
  all_goals first
    | simpa using hdr_deleteCase1 h
    | rw [← some.inj h]; exact hdr_unlink _

theorem hdr_exchangeChild {d : Side} (h : ctx.exchangeChild d n1Loc n2Loc = some ctx') :
    ctx'.hdr = ctx.hdr := by
  obtain ⟨p, -, h⟩ := bind_eq_some_iff.mp h
  rw [← some.inj h]
  simp

theorem hdr_storeReplaced {parent : Rb815hole} {new : ℕ}
    (h : ctx.storeReplaced parentLoc parent loc new = some ctx') : ctx'.hdr = ctx.hdr := by
  rw [storeReplaced] at h
  split_ifs at h
  · rw [← some.inj h]
  · obtain ⟨p, -, rfl⟩ := map_eq_some_iff.mp h
    rfl

theorem hdr_exchangeApart (h : ctx.exchangeApart n1Loc n2Loc = some ctx') : ctx'.hdr = ctx.hdr := by
  obtain ⟨c1, h1, h⟩ := bind_eq_some_iff.mp h
  obtain ⟨c2, h2, h⟩ := bind_eq_some_iff.mp h
  simp only at h
  split_ifs at h
  all_goals
    rw [← hdr_storeReplaced h1, ← hdr_storeReplaced h2, ← some.inj h]
    simp

theorem hdr_exchangeOnce {again : Option Rb815ctx} (hagain : again = some ctx' → ctx'.hdr = ctx.hdr)
    (h : ctx.exchangeOnce again n1Loc n2Loc = some ctx') : ctx'.hdr = ctx.hdr := by
  simp only [exchangeOnce] at h
  split_ifs at h
  · exact hdr_exchangeChild h
  · exact hdr_exchangeChild h
  · exact hagain h
  · exact hdr_exchangeApart h

theorem hdr_delete (h : ctx.delete fuel loc = some ctx') : ctx'.hdr = ctx.hdr := by
  simp only [delete] at h
  split_ifs at h
  · obtain ⟨l, -, h⟩ := bind_eq_some_iff.mp h
    obtain ⟨c, hc, h⟩ := bind_eq_some_iff.mp h
    have hexch : c.hdr = ctx.hdr := hdr_exchangeOnce (fun ha => hdr_exchangeOnce (by simp) ha) hc
    exact (hdr_deleteOneChild h).trans hexch
  · exact hdr_deleteOneChild h

theorem hdr_deleteBehind {loc' : ℕ} (h : deleteBehind fuel ctx = some (ctx', loc')) :
    ctx'.hdr = ctx.hdr := by
  induction fuel generalizing ctx with
  | zero => simp [deleteBehind] at h
  | succ fuel ih =>
    rw [deleteBehind] at h
    split_ifs at h
    · rw [(Prod.mk.inj (some.inj h)).1]
    · obtain ⟨l, -, h⟩ := bind_eq_some_iff.mp h
      split_ifs at h
      · obtain ⟨c, hc, h⟩ := bind_eq_some_iff.mp h
        exact (ih h).trans (hdr_delete hc)
      · rw [(Prod.mk.inj (some.inj h)).1]

theorem hdr_repairMostRestricting (h : ctx.repairMostRestricting = some ctx') :
    ctx'.hdr = ctx.hdr := by
  obtain ⟨⟨c, l⟩, hc, h⟩ := bind_eq_some_iff.mp h
  rw [← hdr_deleteBehind hc]
  simp only at h
  split_ifs at h
  all_goals rw [← some.inj h]
  all_goals rfl

theorem hdr_splitHole {dataFirst : ℕ} (h : ctx.splitHole loc dataFirst dataLast = some ctx') :
    ctx'.hdr = ctx.hdr := by
  simp only [splitHole] at h
  split_ifs at h
  · simpa using hdr_insertRepair h
  · obtain ⟨l, -, h⟩ := bind_eq_some_iff.mp h
    split_ifs at h
    simpa using hdr_insertRepair h

theorem hdr_moveHole (h : ctx.moveHole loc dataLast = some ctx') : ctx'.hdr = ctx.hdr := by
  simp only [moveHole] at h
  split_ifs at h
  all_goals first
    | rw [← some.inj h]; rfl
    | obtain ⟨p, -, rfl⟩ := map_eq_some_iff.mp h
      rfl

/-- Adding data writes no header. -/
theorem hdr_addData {dataFirst : ℕ} {mod mod' : Bool}
    (h : addData dataFirst dataLast fuel ctx mod = some (ctx', mod')) : ctx'.hdr = ctx.hdr := by
  induction fuel generalizing ctx mod with
  | zero => simp [addData] at h
  | succ fuel ih =>
    rw [addData] at h
    obtain ⟨l, -, h⟩ := bind_eq_some_iff.mp h
    simp only at h
    split_ifs at h
    · rw [(Prod.mk.inj (some.inj h)).1]
    · obtain ⟨c, hc, h⟩ := bind_eq_some_iff.mp h
      rw [← (Prod.mk.inj (some.inj h)).1, hdr_splitHole hc]
    · obtain ⟨c, hc, h⟩ := bind_eq_some_iff.mp h
      exact (ih h).trans (hdr_delete hc)
    · simpa using ih h
    · obtain ⟨c, hc, h⟩ := bind_eq_some_iff.mp h
      exact (ih h).trans (hdr_moveHole hc)
    · rw [(Prod.mk.inj (some.inj h)).1]

end Rb815ctx

/-- The fields outside the hole structure after one packet. -/
def PktBuf.take (b : PktBuf) (pkt : Packet) : PktBuf :=
  if pkt.badLength then b
  else
    let b := b.takeHeader pkt
    if pkt.dataLast ≤ 65535 ∧ pkt.moreFrags = false ∧ b.mostRestrictingLast > pkt.dataLast then
      { b with mostRestrictingLast := pkt.dataLast }
    else b

variable {ctx ctx' : Rfc815ctx}

theorem rfc815AddData_hdr {b : ℕ} (h : rfc815AddData ctx pkt a b = some ctx') :
    ctx'.hdr = ctx.hdr := by
  obtain ⟨⟨c, mod⟩, hc, h⟩ := bind_eq_some_iff.mp h
  rw [← Rfc815ctx.hdr_punchHoleList hc]
  simp only at h
  split_ifs at h
  all_goals rw [← some.inj h]
  simp

theorem rb815AddData_hdr {ctx ctx' : Rb815ctx} {b : ℕ}
    (h : rb815AddData ctx pkt a b mod = some ctx') : ctx'.hdr = ctx.hdr := by
  obtain ⟨⟨c, mod⟩, hc, h⟩ := bind_eq_some_iff.mp h
  rw [← Rb815ctx.hdr_addData hc]
  simp only at h
  split_ifs at h
  all_goals rw [← some.inj h]
  simp

theorem rfc815ctxAdd_hdr (h : rfc815ctxAdd ctx pkt = some ctx') :
    ctx'.hdr = (ctx.take pkt).hdr := by
  rw [PktBuf.take]
  simp only [rfc815ctxAdd] at h
  split_ifs at h with hbad hfar hend hshort
  · rw [← some.inj h, if_pos hbad]
  · rw [← some.inj h, if_neg hbad, if_neg (by omega)]
  · obtain ⟨c, hc, h⟩ := bind_eq_some_iff.mp h
    rw [rfc815AddData_hdr h, Rfc815ctx.hdr_clipHoleList hc, if_neg hbad, if_pos ⟨by omega, hend⟩]
  · rw [← some.inj h, if_neg hbad, if_neg fun hc => hend hc.2]
  · rw [rfc815AddData_hdr h, if_neg hbad, if_neg fun hc => hend hc.2]

theorem rb815ctxAdd_hdr {ctx ctx' : Rb815ctx} (h : rb815ctxAdd ctx pkt = some ctx') :
    ctx'.hdr = (ctx.take pkt).hdr := by
  rw [PktBuf.take]
  simp only [rb815ctxAdd] at h
  split_ifs at h with hbad hfar hend hshort
  · rw [← some.inj h, if_pos hbad]
  · rw [← some.inj h, if_neg hbad, if_neg (by omega)]
  · obtain ⟨c, hc, h⟩ := bind_eq_some_iff.mp h
    rw [rb815AddData_hdr h, Rb815ctx.hdr_repairMostRestricting hc, if_neg hbad,
      if_pos ⟨by omega, hend⟩]
  · rw [← some.inj h, if_neg hbad, if_neg fun hc => hend hc.2]
  · rw [rb815AddData_hdr h, if_neg hbad, if_neg fun hc => hend hc.2]

/-- The buffer has the end of the datagram, and the header of the first packet that passed the
checks on its lengths. -/
structure Keeps (pkts : List Packet) (b : PktBuf) : Prop where
  last : b.mostRestrictingLast = mostRestrictingLast (pkts.filterMap Packet.accept)
  hdrLen : b.hdrLen = ((pkts.find? fun p => !p.badLength).map
    fun p => 14 + ipHdrLen p.data ipOff).getD 0
  header : ∀ p, pkts.find? (fun p => !p.badLength) = some p → ∀ j < b.hdrLen,
    b.pktHeader j = p.data j

theorem Keeps.of_hdr {b' : PktBuf} (h : Keeps pkts b) (heq : b'.hdr = b.hdr) : Keeps pkts b' := by
  simp only [PktBuf.hdr, Prod.mk.injEq] at heq
  obtain ⟨hlast, hlen, hhdr⟩ := heq
  exact ⟨hlast.trans h.last, hlen.trans h.hdrLen, by rw [hlen, hhdr]; exact h.header⟩

theorem Keeps.takeHeader (h : Keeps pkts b) (pkt : Packet) (hbad : pkt.badLength = false) :
    (b.takeHeader pkt).hdrLen = (((pkts ++ [pkt]).find? fun p => !p.badLength).map
      fun p => 14 + ipHdrLen p.data ipOff).getD 0 ∧
    ∀ p, (pkts ++ [pkt]).find? (fun p => !p.badLength) = some p →
      ∀ j < (b.takeHeader pkt).hdrLen, (b.takeHeader pkt).pktHeader j = p.data j := by
  rw [find?_append, PktBuf.takeHeader]
  have hlen := h.hdrLen
  cases hfind : pkts.find? fun p => !p.badLength with
  | none =>
    rw [hfind, map_none, getD_none] at hlen
    rw [if_pos hlen]
    refine ⟨by simp [hbad], fun p hp j hj => ?_⟩
    obtain rfl : pkt = p := by simpa [hbad] using hp
    exact (memcpy_of_mem (Nat.zero_le _) (by simpa using hj)).trans
      (by rw [Nat.sub_zero, Nat.zero_add])
  | some q =>
    rw [hfind, map_some, getD_some] at hlen
    rw [if_neg (by omega)]
    refine ⟨hlen, fun p hp j hj => ?_⟩
    exact h.header p (hfind.trans hp) j hj

/-- One more packet. -/
theorem Keeps.take (h : Keeps pkts b) (pkt : Packet) : Keeps (pkts ++ [pkt]) (b.take pkt) := by
  have hlast := h.last
  unfold PktBuf.take
  split_ifs with hbad
  · have hacc : pkt.accept = none := (Packet.accept_eq_none_iff pkt).mpr (.inl hbad)
    refine ⟨by simp [hlast, hacc], by simp [h.hdrLen, hbad], fun p hp => h.header p ?_⟩
    simpa [hbad] using hp
  obtain ⟨hlen, hhdr⟩ := h.takeHeader pkt (by simpa using hbad)
  cases hacc : pkt.accept with
  | none =>
    have hfar : pkt.dataLast > 65535 := ((Packet.accept_eq_none_iff pkt).mp hacc).resolve_left hbad
    rw [if_neg (by omega)]
    exact ⟨by simp [hlast, hacc], hlen, hhdr⟩
  | some f =>
    obtain ⟨-, hle, -, hfl, hfm⟩ := (Packet.accept_eq_some_iff pkt).mp hacc
    have hnew := mostRestrictingLast_append_singleton (pkts.filterMap Packet.accept) f
    rw [← hlast, hfl, hfm] at hnew
    simp only [PktBuf.takeHeader_mostRestrictingLast]
    split_ifs with hend
    · rw [if_pos hend.2] at hnew
      exact ⟨by simp [hacc, hnew], hlen, hhdr⟩
    · rw [if_neg fun hc => hend ⟨hle, hc⟩] at hnew
      exact ⟨by simp [hacc, hnew], hlen, hhdr⟩

/-- An invariant of a run that may abort, indexed by the packets so far. -/
theorem foldlM_packets_inv {σ : Type*} {step : σ → Packet → Option σ} {P : List Packet → σ → Prop}
    {s s' : σ} (h0 : P [] s)
    (hstep : ∀ {pkts s pkt s'}, P pkts s → step s pkt = some s' → P (pkts ++ [pkt]) s')
    (h : pkts.foldlM step s = some s') : P pkts s' := by
  induction pkts using reverseRecOn generalizing s' with
  | nil => exact some.inj h ▸ h0
  | append_singleton pkts pkt ih =>
    rw [foldlM_append] at h
    obtain ⟨s1, hs1, hpkt⟩ := bind_eq_some_iff.mp h
    rw [foldlM_cons] at hpkt
    obtain ⟨s2, hs2, he⟩ := bind_eq_some_iff.mp hpkt
    exact some.inj he ▸ hstep (ih hs1) hs2

/-- The buffer keeps the header of the first packet and the end of the datagram, even if descriptors
were written outside of it. -/
theorem rfc815ctxRun_keeps (h : rfc815ctxRun ctx pkts = some ctx') : Keeps pkts ctx'.toPktBuf :=
  foldlM_packets_inv (P := fun pkts ctx => Keeps pkts ctx.toPktBuf) ⟨rfl, rfl, by simp⟩
    (fun hk hadd => (hk.take _).of_hdr (rfc815ctxAdd_hdr hadd)) h

/-- The same for the red-black tree in the buffer. -/
theorem rb815ctxRun_keeps {ctx ctx' : Rb815ctx} (h : rb815ctxRun ctx pkts = some ctx') :
    Keeps pkts ctx'.toPktBuf :=
  foldlM_packets_inv (P := fun pkts ctx => Keeps pkts ctx.toPktBuf) ⟨rfl, rfl, by simp⟩
    (fun hk hadd => (hk.take _).of_hdr (rb815ctxAdd_hdr hadd)) h

/-! ## Agreement of the two lengths -/

/-- The length of the datagram with the header of the first packet. -/
def datagramLen (pkts : List Packet) : ℕ :=
  (pkts.head?.map fun p => ipHdrLen p.data ipOff).getD 0 +
    mostRestrictingLast (pkts.filterMap Packet.accept) + 1

/-- The total length field is the size without the Ethernet header. -/
def TotalLenAgrees (r : Packet) : Prop := ipTotalLen r.data ipOff = r.sz - 14

instance (r : Packet) : Decidable (TotalLenAgrees r) := inferInstanceAs (Decidable (_ = _))

theorem totalLenAgrees_iff_of_eq {n : ℕ} (h : ipTotalLen r.data ipOff = n % 65536 ∧ r.sz - 14 = n) :
    TotalLenAgrees r ↔ n ≤ 65535 := by
  rw [TotalLenAgrees, h.1, h.2]
  omega

theorem reassembleList_agrees_iff {w mrl : ℕ} {packetList : List Packet}
    (hhead : packetList.head? = pkts.head?)
    (hlast : mrl = mostRestrictingLast (pkts.filterMap Packet.accept))
    (h : reassembleList e w alloc packetList mrl = some (some r)) :
    TotalLenAgrees r ↔ datagramLen pkts ≤ 65535 := by
  cases packetList with
  | nil => simp [reassembleList, reassembleSteps] at h
  | cons p rest =>
    rw [datagramLen, ← hhead, ← hlast]
    exact totalLenAgrees_iff_of_eq (reassembleList_totalLen h)

theorem Keeps.agrees_iff (hk : Keeps pkts b) (hne : pkts ≠ [])
    (hacc : ∀ p ∈ pkts, p.accept.isSome = true) (h : b.reassemble e alloc = some (some r)) :
    TotalLenAgrees r ↔ datagramLen pkts ≤ 65535 := by
  obtain ⟨p, rest, rfl⟩ := exists_cons_of_ne_nil hne
  obtain ⟨f, hf⟩ := isSome_iff_exists.mp (hacc p (by simp))
  have hbad := ((Packet.accept_eq_some_iff p).mp hf).1
  have hlen : b.hdrLen = 14 + ipHdrLen p.data ipOff := by
    rw [hk.hdrLen]
    simp [hbad]
  have hlt : ipHdrLen p.data ipOff < 65536 := (ipHdrLen_le p.data ipOff).trans_lt (by omega)
  rw [datagramLen, ← hk.last]
  exact totalLenAgrees_iff_of_eq (b.reassemble_totalLen hlen hlt h)

/-- For every sequence of accepted packets after which an engine is complete and puts a packet
together, the total length field of that packet is its size without the Ethernet header exactly if
the datagram, with the header of the first packet, has at most 65535 bytes. -/
theorem totalLen_agrees_iff {pkts : List Packet} (hacc : ∀ p ∈ pkts, p.accept.isSome = true)
    (e : Endian) (alloc : Option Packet) (r : Packet) :
    (reassctxComplete (reassctxRun pkts) = true →
      reassctxReassemble e alloc (reassctxRun pkts) = some (some r) →
      (TotalLenAgrees r ↔ datagramLen pkts ≤ 65535)) ∧
    (∀ heap rbhole ipv6 ctx, rbExplicitReassctxRun heap rbhole ipv6 pkts = some ctx →
      rbExplicitReassctxComplete ctx = true →
      rbExplicitReassctxReassemble e alloc ctx = some (some r) →
      (TotalLenAgrees r ↔ datagramLen pkts ≤ 65535)) ∧
    (∀ ctx ctx', rfc815ctxRun ctx pkts = some ctx' → rfc815ctxComplete ctx' = some true →
      rfc815ctxReassemble e alloc ctx' = some (some r) →
      (TotalLenAgrees r ↔ datagramLen pkts ≤ 65535)) ∧
    (∀ ctx ctx', rb815ctxRun ctx pkts = some ctx' → rb815ctxComplete ctx' = true →
      rb815ctxReassemble e alloc ctx' = some (some r) →
      (TotalLenAgrees r ↔ datagramLen pkts ≤ 65535)) := by
  refine ⟨fun _ h => ?_, fun heap rbhole ipv6 ctx hrun _ h => ?_, fun ctx ctx' hrun hdone h => ?_,
    fun ctx ctx' hrun hdone h => ?_⟩
  · exact reassembleList_agrees_iff (by rw [reassctxRun_packetList]) (reassctxRun_inv pkts).last h
  · obtain ⟨hlast, hhead⟩ := rbExplicitReassctxRun_keeps hacc hrun
    exact reassembleList_agrees_iff hhead hlast h
  · refine (rfc815ctxRun_keeps hrun).agrees_iff (fun hnil => ?_) hacc h
    -- nothing is complete before the first packet
    rw [hnil] at hrun
    rw [← some.inj hrun] at hdone
    simp [rfc815ctxComplete, rfc815ctxInitFast, Rfc815ctx.storeHole] at hdone
  · refine (rb815ctxRun_keeps hrun).agrees_iff (fun hnil => ?_) hacc h
    rw [hnil] at hrun
    rw [← some.inj hrun] at hdone
    simp [rb815ctxComplete, rb815ctxInitFast, Rb815ctx.storeHole] at hdone

/-- A last fragment alone is a datagram of 24 bytes. -/
theorem totalLen_agrees_shortPacket :
    (∀ p ∈ [shortPacket], p.accept.isSome = true) ∧
      reassctxComplete (reassctxRun [shortPacket]) = true ∧
      ∃ r, reassctxReassemble .little (some shortPacket) (reassctxRun [shortPacket]) =
        some (some r) ∧
        (TotalLenAgrees r ↔ datagramLen [shortPacket] ≤ 65535) := by
  have hacc : ∀ p ∈ [shortPacket], p.accept.isSome = true := by decide
  have hdone : reassctxComplete (reassctxRun [shortPacket]) = true := by decide
  obtain ⟨r, hr⟩ : ∃ r, reassctxReassemble .little (some shortPacket) (reassctxRun [shortPacket]) =
      some (some r) := ⟨_, rfl⟩
  exact ⟨hacc, hdone, r, hr, (totalLen_agrees_iff hacc .little (some shortPacket) r).1 hdone hr⟩

/-- Payload bytes 0 to 65511, with more to come. -/
def longPacket : Packet where
  direction := .uplink
  sz := 65546
  data := fun i => if i = 14 then 0x45 else if i = 16 then 0xff else if i = 17 then 0xfc
    else if i = 20 then 0x20 else 0

/-- Behind the bytes 0 to 65511 a last fragment with the bytes 65512 to 65519, and the packet of
65554 bytes that every engine makes of the two says that it has 4 bytes behind the Ethernet header.
-/
theorem totalLen_wraps : let pkts := [longPacket, endPacket 0x1f 0xfd]
    let wraps (r : Option (Option Packet)) : Bool :=
      r.any fun r => r.any fun r => r.sz = 65554 && ipTotalLen r.data ipOff = 4
    (∀ p ∈ pkts, p.accept.isSome = true) ∧
    (reassctxComplete (reassctxRun pkts) = true ∧
      wraps (reassctxReassemble .little (some longPacket) (reassctxRun pkts)) = true) ∧
    (rbExplicitReassctxRun (fun _ => ⟨false, none, none, none⟩) (fun _ => ⟨0, 0⟩) false pkts).any
      (fun ctx => rbExplicitReassctxComplete ctx &&
        wraps (rbExplicitReassctxReassemble .little (some longPacket) ctx)) = true ∧
    (rfc815ctxRun zeroRfc815ctx pkts).any (fun ctx => rfc815ctxComplete ctx = some true &&
        wraps (rfc815ctxReassemble .little (some longPacket) ctx)) = true ∧
    (rb815ctxRun zeroRb815ctx pkts).any (fun ctx => rb815ctxComplete ctx &&
        wraps (rb815ctxReassemble .little (some longPacket) ctx)) = true := by
  decide +kernel

end Pptk.Ipfrag
