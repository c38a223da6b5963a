import Pptk.Ipfrag.Reassemble

/-!
# Fragmenting and reassembling

What the engines see when they are fed with fragments that `fragment4` made of
one frame, in any order and with any overlaps, and the round trip through the
engines that keep a packet list.

Main results: `Pieces.complete_iff`, `reassembleList_pieces` and `list_engines_round_trip`.
-/

namespace Pptk.Ipfrag

open Pptk.Lib Pptk.Iphdr Pptk.Rbtree List Option

/-- A frame that `fragment4` accepts, whose IP total length is that of the frame and whose checksum
is the one that `ip_set_hdr_cksum_calc` writes. -/
structure CanonicalFrame (e : Endian) (ether : Mem) (sz : ℕ) : Prop where
  lt : sz < 65536
  accepted : ∃ alloc frags out, fragment4 e alloc ether sz frags = .ok out
  totalLen : ipTotalLen ether ipOff = sz - 14
  cksum : ipSetHdrCksumCalc e ether ipOff (ipHdrLen ether ipOff) = some ether

/-- A fragment of the frame that some call of `fragment4` returned. -/
def Produced (e : Endian) (ether : Mem) (sz : ℕ) (frag : Fragment) : Prop :=
  ∃ alloc frags out, fragment4 e alloc ether sz frags = .ok out ∧ frag ∈ out

/-- The fragment has payload byte `i`. -/
def Fragment.Has (frag : Fragment) (i : ℕ) : Prop :=
  frag.datastart ≤ i ∧ i < frag.datastart + frag.datalen

/-- The ranges of the fragments are the whole payload, which is not empty. -/
def CoverPayload (ether : Mem) (sz : ℕ) (fed : List Fragment) : Prop :=
  0 < payloadLen ether sz ∧ ∀ i < payloadLen ether sz, ∃ frag ∈ fed, frag.Has i

namespace CanonicalFrame

variable {e : Endian} {ether : Mem} {sz : ℕ}

theorem frame (h : CanonicalFrame e ether sz) : frameError e ether sz = none := by
  obtain ⟨alloc, frags, out, h⟩ := h.accepted
  cases hframe : frameError e ether sz with
  | none => rfl
  | some err => simp [fragment4, hframe] at h

theorem hdrLen_ge (h : CanonicalFrame e ether sz) : 20 ≤ ipHdrLen ether ipOff :=
  (frameError_eq_none h.frame).1

theorem hdrLen_le (h : CanonicalFrame e ether sz) : 14 + ipHdrLen ether ipOff ≤ sz :=
  (frameError_eq_none h.frame).2.1

theorem cksum_eq (h : CanonicalFrame e ether sz) :
    ether = ipSetHdrCksum ether ipOff (ipHdrCksumValue e ether ipOff) := by
  have := h.cksum
  rw [ipSetHdrCksumCalc_eq e ether h.hdrLen_ge le_rfl] at this
  exact (some.inj this).symm

end CanonicalFrame

/-! ## The header -/

/-- Rewriting the header of any piece gives the header of the frame. -/
theorem IsPiece.header_restored {e : Endian} {ether : Mem} {sz start len : ℕ} {pkt : Packet}
    {m m' : Mem} (hc : CanonicalFrame e ether sz) (hp : IsPiece ether sz start len pkt)
    (hm : ∀ j < 14 + ipHdrLen ether ipOff, m j = pkt.data j)
    (hr : HeaderRewritten e m m' ipOff 0 false (ipTotalLen ether ipOff)) :
    ∀ j < 14 + ipHdrLen ether ipOff, m' j = ether j := by
  obtain ⟨h20, -, hmf, hoff⟩ := frameError_eq_none hc.frame
  have hframe : HeaderRewritten e ether ether ipOff 0 false (ipTotalLen ether ipOff) :=
    ⟨hoff, hmf, rfl, rfl, hc.cksum_eq, fun j _ _ _ _ _ _ => rfl⟩
  have hlen : ipHdrLen m ipOff = ipHdrLen ether ipOff :=
    (ipHdrLen_congr (hm 14 (by omega))).trans (hp.hdrLen h20)
  have hfields := hr.ext hframe (hlen ▸ h20)
    ((congrArg (· &&& 0xC0) (hm 20 (by omega))).trans hp.flags)
    fun j hj h2 h3 h6 h7 h10 h11 => by
      rw [hlen] at hj
      have h14 : 14 + j < 14 + ipHdrLen ether ipOff := by omega
      exact (hm (14 + j) h14).trans
        (hp.header (14 + j) h14 (by omega) (by omega) (by omega) (by omega) (by omega) (by omega))
  intro j hj
  by_cases hj14 : j < 14
  · rw [hr.other j (by simp; omega) (by simp; omega) (by simp; omega) (by simp; omega)
      (by simp; omega)
      (by simp; omega), hm j hj, hp.header j hj (by omega) (by omega) (by omega) (by omega)
        (by omega)
      (by omega)]
  · have := hfields (j - 14) (by omega)
    rwa [show ipOff + (j - 14) = j from Nat.add_sub_of_le (not_lt.mp hj14)] at this

/-! ## The ranges -/

/-- The packets of fragments made of one frame. -/
def Pieces (ether : Mem) (sz : ℕ) (fed : List Fragment) : Prop :=
  ∀ frag ∈ fed, ∃ pkt, frag.pkt = some pkt ∧ IsPiece ether sz frag.datastart frag.datalen pkt

theorem pieces_of_produced {e : Endian} {ether : Mem} {sz : ℕ} {fed : List Fragment}
    (hsz : sz < 65536) (h : ∀ frag ∈ fed, Produced e ether sz frag) : Pieces ether sz fed := by
  intro frag hfrag
  obtain ⟨alloc, frags, out, hout, hmem⟩ := h frag hfrag
  exact isPiece_of_fragment4 hsz hout frag hmem

namespace Pieces

variable {ether : Mem} {sz : ℕ} {fed : List Fragment}

/-- The packets fed to an engine. -/
abbrev packets (fed : List Fragment) : List Packet := fed.filterMap Fragment.pkt

/-- The fragments an engine accepts. -/
abbrev accepted (fed : List Fragment) : List Frag := (packets fed).filterMap Packet.accept

theorem of_mem_packets (h : Pieces ether sz fed) {pkt : Packet} (hp : pkt ∈ packets fed) :
    ∃ frag ∈ fed, frag.pkt = some pkt ∧ IsPiece ether sz frag.datastart frag.datalen pkt := by
  obtain ⟨frag, hfrag, hpkt⟩ := mem_filterMap.mp hp
  obtain ⟨pkt', hpkt', hpiece⟩ := h frag hfrag
  obtain rfl : pkt' = pkt := some.inj (hpkt'.symm.trans hpkt)
  exact ⟨frag, hfrag, hpkt, hpiece⟩

theorem of_mem_accepted (h : Pieces ether sz fed) (hsz : sz < 65536)
    (h20 : 20 ≤ ipHdrLen ether ipOff) {f : Frag} (hf : f ∈ accepted fed) :
    ∃ frag ∈ fed, f.first = frag.datastart ∧ f.last + 1 = frag.datastart + frag.datalen ∧
      f.last < payloadLen ether sz ∧
      (f.more = false ↔ f.last + 1 = payloadLen ether sz) := by
  obtain ⟨pkt, hpkt, hacc⟩ := mem_filterMap.mp hf
  obtain ⟨frag, hfrag, -, hpiece⟩ := h.of_mem_packets hpkt
  obtain ⟨h1, h2, h3⟩ := hpiece.of_accept h20 hsz hacc
  have hle := hpiece.le
  exact ⟨frag, hfrag, h1, h2, by omega, h3⟩

theorem covered_iff (h : Pieces ether sz fed) (hsz : sz < 65536) (h20 : 20 ≤ ipHdrLen ether ipOff)
    (i : ℕ) : Covered (accepted fed) i ↔ ∃ frag ∈ fed, frag.Has i := by
  constructor
  · rintro ⟨f, hf, hhas⟩
    obtain ⟨frag, hfrag, h1, h2, -⟩ := h.of_mem_accepted hsz h20 hf
    rw [Frag.Has] at hhas
    exact ⟨frag, hfrag, by omega, by omega⟩
  · rintro ⟨frag, hfrag, hhas⟩
    obtain ⟨pkt, hpkt, hpiece⟩ := h frag hfrag
    rw [Fragment.Has] at hhas
    obtain ⟨f, hacc, h1, h2, -⟩ := hpiece.accept_eq_some h20 hsz (by omega)
    exact ⟨f, mem_filterMap.mpr ⟨pkt, mem_filterMap.mpr ⟨frag, hfrag, hpkt⟩, hacc⟩,
      by omega, by omega⟩

theorem last_of_lt (h : Pieces ether sz fed) (hsz : sz < 65536) (h20 : 20 ≤ ipHdrLen ether ipOff)
    (hlt : mostRestrictingLast (accepted fed) < 65535) :
    mostRestrictingLast (accepted fed) + 1 = payloadLen ether sz := by
  obtain ⟨f, hf, hmore, hlast⟩ := exists_last_of_lt hlt
  obtain ⟨-, -, -, -, -, hiff⟩ := h.of_mem_accepted hsz h20 hf
  rw [← hlast]
  exact hiff.mp hmore

theorem le_last (h : Pieces ether sz fed) (hsz : sz < 65536) (h20 : 20 ≤ ipHdrLen ether ipOff)
    {i : ℕ} (hi : i < payloadLen ether sz) : i ≤ mostRestrictingLast (accepted fed) := by
  have hpay : payloadLen ether sz = sz - 14 - ipHdrLen ether ipOff := rfl
  by_cases hlt : mostRestrictingLast (accepted fed) < 65535
  · have := h.last_of_lt hsz h20 hlt
    omega
  · omega

theorem last_eq (h : Pieces ether sz fed) (hsz : sz < 65536) (h20 : 20 ≤ ipHdrLen ether ipOff)
    (hcov : ∀ i ≤ mostRestrictingLast (accepted fed), Covered (accepted fed) i) :
    mostRestrictingLast (accepted fed) + 1 = payloadLen ether sz := by
  have hpay : payloadLen ether sz = sz - 14 - ipHdrLen ether ipOff := rfl
  obtain ⟨g, hg, hhas⟩ := hcov _ le_rfl
  obtain ⟨-, -, -, -, hglt, -⟩ := h.of_mem_accepted hsz h20 hg
  rw [Frag.Has] at hhas
  exact h.last_of_lt hsz h20 (by omega)

/-- What every engine reports as complete is that the fragments fed cover the whole nonempty
payload. -/
theorem complete_iff (h : Pieces ether sz fed) (hsz : sz < 65536)
    (h20 : 20 ≤ ipHdrLen ether ipOff) :
    (∀ i ≤ mostRestrictingLast (accepted fed),
      Covered (accepted fed) i) ↔ CoverPayload ether sz fed := by
  constructor
  · intro hcov
    have hlast := h.last_eq hsz h20 hcov
    exact ⟨by omega, fun i hi => (h.covered_iff hsz h20 i).mp (hcov i (by omega))⟩
  · rintro ⟨hpos, hcov⟩ i hi
    -- the fragment with the final byte is a last fragment
    obtain ⟨f, hf, hhas⟩ := (h.covered_iff hsz h20 (payloadLen ether sz - 1)).mpr
      (hcov _ (by omega))
    obtain ⟨-, -, -, -, hlt, hiff⟩ := h.of_mem_accepted hsz h20 hf
    rw [Frag.Has] at hhas
    have hle := mostRestrictingLast_le_last hf (hiff.mpr (by omega))
    exact (h.covered_iff hsz h20 i).mpr (hcov i (by omega))

end Pieces

/-! ## The packet list -/

theorem IsPiece.copyLen_eq {e : Endian} {ether : Mem} {sz start len w : ℕ} {pkt : Packet}
    (hc : CanonicalFrame e ether sz) (hp : IsPiece ether sz start len pkt)
    (hpos : 0 < payloadLen ether sz) : copyLen w (payloadLen ether sz - 1) pkt = len := by
  have hle := hp.le
  have hpay : payloadLen ether sz = sz - 14 - ipHdrLen ether ipOff := rfl
  have hlt := hc.lt
  have hlen : pkt.len = len := by
    rw [Packet.len, hp.totalLen, hp.hdrLen hc.hdrLen_ge]
    omega
  rw [copyLen, hlen, Packet.dataFirst, hp.fragOff, if_neg (by omega)]

/-- A nonempty list of pieces that cover the payload is put together to the frame. -/
theorem reassembleList_pieces {e : Endian} {ether : Mem} {sz : ℕ} (w : ℕ)
    (hc : CanonicalFrame e ether sz) {pkts : List Packet}
    (hpieces : ∀ pkt ∈ pkts, ∃ start len, IsPiece ether sz start len pkt)
    (hpos : 0 < payloadLen ether sz)
    (hcov : ∀ i < payloadLen ether sz, ∃ pkt ∈ pkts, ∃ start len,
      IsPiece ether sz start len pkt ∧ start ≤ i ∧ i < start + len) (alloc : Packet) :
    ∃ out, reassembleList e w (some alloc) pkts (payloadLen ether sz - 1) = some (some out) ∧
      out.sz = sz ∧ ∀ j < sz, out.data j = ether j := by
  have hge := hc.hdrLen_ge
  have hle := hc.hdrLen_le
  have hlt := hc.lt
  have hpay : payloadLen ether sz = sz - 14 - ipHdrLen ether ipOff := rfl
  obtain ⟨p0, hp0, -⟩ := hcov 0 hpos
  obtain ⟨p, ps, rfl⟩ := exists_cons_of_ne_nil (ne_nil_of_mem hp0)
  obtain ⟨start, len, hp⟩ := hpieces p (by simp)
  have hhl := hp.hdrLen hge
  set data := memcpy alloc.data 0 p.data 0 (14 + ipHdrLen ether ipOff) with hdata
  have hcopy : ∀ j < 14 + ipHdrLen ether ipOff, data j = p.data j := fun j hj => by
    rw [hdata, memcpy_of_mem (by omega) (by omega), Nat.sub_zero, Nat.zero_add]
  have hlen : ipHdrLen data ipOff = ipHdrLen ether ipOff :=
    (ipHdrLen_congr (hcopy 14 (by omega))).trans hhl
  have htotal : ipHdrLen ether ipOff + (payloadLen ether sz - 1) + 1 = ipTotalLen ether ipOff := by
    rw [hc.totalLen]
    omega
  obtain ⟨m, hm, hr⟩ := rewriteHeader_spec e data ipOff false (Nat.zero_mod 8) (by omega)
    (ipTotalLen_lt ether ipOff) hlen hge
  have hheader := hp.header_restored hc hcopy hr
  have hpay2 : ipPayload m ipOff = 14 + ipHdrLen ether ipOff := by
    rw [ipPayload, ipHdrLen_congr (hheader 14 (by omega))]
  refine ⟨Reassembly.packet ⟨p.direction, 14 + ipHdrLen ether ipOff + (payloadLen ether sz - 1) + 1,
    m, (p :: ps).map (reassembleCopy w (payloadLen ether sz - 1) (14 + ipHdrLen ether ipOff))⟩,
    ?_, by simp only [Reassembly.packet]; omega, fun j hj => ?_⟩
  · simp only [reassembleList, reassembleSteps, hhl, etherHdrLen, htotal, ← hdata, hm, hpay2,
      bind_eq_bind, bind_some, map_some]
  by_cases hjl : j < 14 + ipHdrLen ether ipOff
  · rw [← hheader j hjl]
    exact exec_reassembleCopy_of_lt hjl _ m
  · obtain ⟨i, rfl⟩ := Nat.exists_eq_add_of_le (not_lt.mp hjl)
    obtain ⟨q, hq, start, len, hqp, hqi⟩ := hcov i (by omega)
    refine exec_reassembleCopy (fun i => ether (14 + ipHdrLen ether ipOff + i))
      (fun q hq j hj => ?_) m ⟨q, hq, ?_⟩
    · obtain ⟨start, len, hqp⟩ := hpieces q hq
      rw [hqp.copyLen_eq hc hpos] at hj
      rw [ipPayload, hqp.hdrLen hge, Packet.dataFirst, hqp.fragOff, ← Nat.add_assoc]
      exact hqp.payload j hj
    · rw [hqp.copyLen_eq hc hpos, Packet.dataFirst, hqp.fragOff]
      exact hqi

/-- The frame an engine returns is the original one, whatever the fresh packet contained. -/
def Restores (ether : Mem) (sz : ℕ) (reassemble : Option Packet → Option (Option Packet)) : Prop :=
  ∀ alloc, ∃ out, reassemble (some alloc) = some (some out) ∧ out.sz = sz ∧
    ∀ j < sz, out.data j = ether j

section Engines

variable {e : Endian} {ether : Mem} {sz : ℕ} {fed : List Fragment}

theorem reassctx_restores (hc : CanonicalFrame e ether sz) (h : Pieces ether sz fed) :
    let ctx := reassctxRun (Pieces.packets fed)
    (reassctxComplete ctx = true ↔ CoverPayload ether sz fed) ∧
      (reassctxComplete ctx = true →
        Restores ether sz fun alloc => reassctxReassemble e alloc ctx) := by
  intro ctx
  have hinv : ReassInv (Pieces.accepted fed) ctx := reassctxRun_inv _
  have hcomplete := reassctxComplete_iff hinv
  have hiff := h.complete_iff hc.lt hc.hdrLen_ge
  rw [hinv.last] at hcomplete
  refine ⟨hcomplete.trans hiff, fun hdone alloc => ?_⟩
  have hlast := h.last_eq hc.lt hc.hdrLen_ge (hcomplete.mp hdone)
  have hmrl : ctx.mostRestrictingLast = payloadLen ether sz - 1 :=
    hinv.last.trans (Nat.eq_sub_of_add_eq hlast)
  obtain ⟨hpos, hcov⟩ := hiff.mp (hcomplete.mp hdone)
  have hlist : ctx.packetList = Pieces.packets fed := reassctxRun_packetList _
  simp only [reassctxReassemble, hlist, hmrl]
  refine reassembleList_pieces 32 hc (fun pkt hpkt => ?_) hpos (fun i hi => ?_) alloc
  · obtain ⟨frag, -, -, hpiece⟩ := h.of_mem_packets hpkt
    exact ⟨_, _, hpiece⟩
  · obtain ⟨frag, hfrag, hhas⟩ := hcov i hi
    obtain ⟨pkt, hpkt, hpiece⟩ := h frag hfrag
    exact ⟨pkt, mem_filterMap.mpr ⟨frag, hfrag, hpkt⟩, _, _, hpiece, hhas⟩

theorem rbExplicitReassctx_restores (hc : CanonicalFrame e ether sz) (h : Pieces ether sz fed)
    {ctx : RbExplicitReassctx} (hinv : RbExplicitInv (Pieces.packets fed) ctx) :
    (rbExplicitReassctxComplete ctx = true ↔ CoverPayload ether sz fed) ∧
      (rbExplicitReassctxComplete ctx = true →
        Restores ether sz fun alloc => rbExplicitReassctxReassemble e alloc ctx) := by
  have hcomplete := rbExplicitReassctxComplete_iff hinv
  have hiff := h.complete_iff hc.lt hc.hdrLen_ge
  rw [hinv.last] at hcomplete
  refine ⟨hcomplete.trans hiff, fun hdone alloc => ?_⟩
  have hlast := h.last_eq hc.lt hc.hdrLen_ge (hcomplete.mp hdone)
  have hmrl : ctx.mostRestrictingLast = payloadLen ether sz - 1 :=
    hinv.last.trans (Nat.eq_sub_of_add_eq hlast)
  obtain ⟨hpos, -⟩ := hiff.mp (hcomplete.mp hdone)
  have hpieces : ∀ pkt ∈ ctx.packetList.map Prod.snd, ∃ start len,
      IsPiece ether sz start len pkt := by
    intro pkt hpkt
    obtain ⟨x, hx, rfl⟩ := mem_map.mp hpkt
    obtain ⟨frag, -, -, hpiece⟩ := h.of_mem_packets (mem_of_getElem? (hinv.kept x hx))
    exact ⟨_, _, hpiece⟩
  simp only [rbExplicitReassctxReassemble, hmrl]
  refine reassembleList_pieces 64 hc hpieces hpos (fun i hi => ?_) alloc
  -- the packets that were freed cover nothing that the others do not
  obtain ⟨f, hf, hhas⟩ := hinv.covered i (by omega)
    (hcomplete.mp hdone i (by rw [← hinv.last]; omega))
  obtain ⟨x, hx, hacc⟩ := mem_filterMap.mp hf
  obtain ⟨start, len, hpiece⟩ := hpieces x.2 (mem_map_of_mem hx)
  obtain ⟨h1, h2, -⟩ := hpiece.of_accept hc.hdrLen_ge hc.lt hacc
  rw [Frag.Has] at hhas
  exact ⟨x.2, mem_map_of_mem hx, start, len, hpiece, by omega, by omega⟩

end Engines

/-- For every frame that `fragment4` accepts and every sequence of fragments made of it, the
linked-list engine and the red-black tree engine in IPv4 mode report complete exactly when the
ranges of the fragments are the whole nonempty payload, and then they return the original frame. -/
theorem list_engines_round_trip {e : Endian} {ether : Mem} {sz : ℕ} (hc : CanonicalFrame e ether sz)
    (fed : List Fragment) (hfed : ∀ frag ∈ fed, Produced e ether sz frag) :
    let ctx := reassctxRun (Pieces.packets fed)
    ((reassctxComplete ctx = true ↔ CoverPayload ether sz fed) ∧
      (reassctxComplete ctx = true →
        Restores ether sz fun alloc => reassctxReassemble e alloc ctx)) ∧
    ∀ heap rbhole, ∃ ctx,
      rbExplicitReassctxRun heap rbhole false (Pieces.packets fed) = some ctx ∧
      (rbExplicitReassctxComplete ctx = true ↔ CoverPayload ether sz fed) ∧
      (rbExplicitReassctxComplete ctx = true →
        Restores ether sz fun alloc => rbExplicitReassctxReassemble e alloc ctx) := by
  have h : Pieces ether sz fed := pieces_of_produced hc.lt hfed
  refine ⟨reassctx_restores hc h, fun heap rbhole => ?_⟩
  obtain ⟨ctx, hrun, hinv⟩ := rbExplicitReassctxRun_inv heap rbhole (Pieces.packets fed)
  exact ⟨ctx, hrun, rbExplicitReassctx_restores hc h hinv⟩

/-! ## A frame with 16 payload bytes -/

/-- A frame of 50 bytes with a 20-byte IPv4 header. -/
def sampleFrame : Mem := fun i =>
  [0, 0, 0, 0, 0, 1, 0, 0, 0, 0, 0, 2, 0x08, 0x00,
    0x45, 0, 0, 36, 0, 1, 0, 0, 64, 17, 0x66, 0xC6, 10, 0, 0, 1, 10, 0, 0, 2,
    1, 2, 3, 4, 5, 6, 7, 8, 9, 10, 11, 12, 13, 14, 15, 16].getD i 0

/-- The fragments of `sampleFrame` for bytes 8 to 15 and 0 to 7. -/
def sampleFed : List Fragment :=
  match fragment4 .little (fun _ => some ⟨.uplink, 0, fun _ => 0⟩) sampleFrame 50
    [⟨8, 8, none⟩, ⟨0, 8, none⟩] with
  | .ok out => out
  | .error _ => []

theorem sampleFrame_canonical : CanonicalFrame .little sampleFrame 50 := by
  refine ⟨by norm_num, ⟨fun _ => none, [], [], by rfl⟩, by decide, ?_⟩
  rw [ipSetHdrCksumCalc_eq _ _ (by decide) le_rfl,
    show ipHdrCksumValue .little sampleFrame ipOff = hdrGet16n sampleFrame (ipOff + 10) by decide]
  exact congrArg some (hdrSet16n_hdrGet16n sampleFrame (ipOff + 10))

theorem sampleFed_spec :
    sampleFed.map Fragment.range = [(8, 8), (0, 8)] ∧
      ∀ frag ∈ sampleFed, Produced .little sampleFrame 50 frag := by
  obtain ⟨out, hout, hrange⟩ := fragment4_eq_ok (fun _ => some ⟨.uplink, 0, fun _ => 0⟩)
    [⟨8, 8, none⟩, ⟨0, 8, none⟩] sampleFrame_canonical.lt sampleFrame_canonical.frame (by decide)
    (fun _ => rfl)
  have hfed : sampleFed = out := by rw [sampleFed, hout]
  rw [hfed]
  exact ⟨hrange, fun frag hfrag => ⟨_, _, out, hout, hfrag⟩⟩

theorem sampleFed_cover : CoverPayload sampleFrame 50 sampleFed := by
  have hpay : payloadLen sampleFrame 50 = 16 := by decide
  have hmem : ∀ r ∈ [(8, 8), (0, 8)], ∃ frag ∈ sampleFed, frag.range = r := fun r hr => by
    rw [← sampleFed_spec.1] at hr
    exact mem_map.mp hr
  rw [CoverPayload, hpay]
  refine ⟨by norm_num, fun i hi => ?_⟩
  by_cases h : i < 8
  · obtain ⟨frag, hfrag, hr⟩ := hmem (0, 8) (by decide)
    simp only [Fragment.range, Prod.mk.injEq] at hr
    exact ⟨frag, hfrag, by omega, by omega⟩
  · obtain ⟨frag, hfrag, hr⟩ := hmem (8, 8) (by decide)
    simp only [Fragment.range, Prod.mk.injEq] at hr
    exact ⟨frag, hfrag, by omega, by omega⟩

/-- The frame comes back from its two fragments. -/
theorem list_engines_round_trip_sampleFrame :
    CanonicalFrame .little sampleFrame 50 ∧
      (∀ frag ∈ sampleFed, Produced .little sampleFrame 50 frag) ∧
      Restores sampleFrame 50 fun alloc =>
        reassctxReassemble .little alloc (reassctxRun (Pieces.packets sampleFed)) := by
  have h := list_engines_round_trip sampleFrame_canonical sampleFed sampleFed_spec.2
  exact ⟨sampleFrame_canonical, sampleFed_spec.2, h.1.2 (h.1.1.mpr sampleFed_cover)⟩

end Pptk.Ipfrag
