import Pptk.Ipfrag.TotalLen

/-!
# The combo engine

Model of `ipfrag/combo.c`. The engine starts as the linked-list engine and can be
promoted to the RFC 815 engine: a new context is allocated, the packets of the
list are added to it in order, and the list is freed. `comboctx_add` promotes by
itself once there are many packets. What `malloc` returns is an argument of every
call that may promote: a context with arbitrary contents, or `NULL`.

Main results: `comboctxRun_inv` and `combo_promotion_invisible`.
-/

namespace Pptk.Ipfrag

open Pptk.Lib Pptk.Iphdr List Option

/-! ## The source functions -/

/-- The union `u` of `struct comboctx`, with `rfc_active` as its tag. -/
inductive ComboU
  | reass (ctx : Reassctx)
  | rfc (ctx : Rfc815ctx)

/-- `struct comboctx` (combo.h:17-24). -/
structure Comboctx where
  packetCount : ℕ
  u : ComboU

/-- `ctx->rfc_active`. -/
def Comboctx.rfcActive (ctx : Comboctx) : Bool :=
  match ctx.u with
  | .reass _ => false
  | .rfc _ => true

/-- `comboctx_init` (combo.c:13-18). -/
def comboctxInit : Comboctx := ⟨0, .reass reassctxInit⟩

/-- `rfc815ctx_init` (rfc815.c:40-44) over a context with arbitrary contents. -/
def rfc815ctxInit (ctx : Rfc815ctx) : Rfc815ctx :=
  rfc815ctxInitFast { ctx with pkt := fun i => if i < pktSize then 0 else ctx.pkt i }

/-- `comboctx_promote` (combo.c:31-53); `newctx` is what `malloc` returns. -/
def comboctxPromote (newctx : Option Rfc815ctx) (ctx : Comboctx) : Option Comboctx :=
  match ctx.u with
  | .rfc _ => some ctx
  | .reass reass =>
    match newctx with
    | none => some ctx
    | some newctx => do
      let newctx ← reass.packetList.foldlM rfc815ctxAdd (rfc815ctxInit newctx)
      some { ctx with u := .rfc newctx }

/-- `comboctx_add` (combo.c:55-70). -/
def comboctxAdd (newctx : Option Rfc815ctx) (ctx : Comboctx) (pkt : Packet) : Option Comboctx := do
  let ctx ← (if ctx.rfcActive = false ∧
    ctx.packetCount > 65535 / 1514 then comboctxPromote newctx ctx
    else some ctx)
  let ctx := { ctx with packetCount := ctx.packetCount + 1 }
  match ctx.u with
  | .rfc rfc => do
    let rfc ← rfc815ctxAdd rfc pkt
    some { ctx with u := .rfc rfc }
  | .reass reass => some { ctx with u := .reass (reassctxAdd reass pkt) }

/-- `comboctx_complete` (combo.h:28-35). -/
def comboctxComplete (ctx : Comboctx) : Option Bool :=
  match ctx.u with
  | .rfc rfc => rfc815ctxComplete rfc
  | .reass reass => some (reassctxComplete reass)

/-- `comboctx_reassemble` (combo.c:72-80). -/
def comboctxReassemble (e : Endian) (alloc : Option Packet) (ctx : Comboctx) :
    Option (Option Packet) :=
  match ctx.u with
  | .rfc rfc => rfc815ctxReassemble e alloc rfc
  | .reass reass => reassctxReassemble e alloc reass

/-- A call that changes the context, with what `malloc` returns if it promotes. -/
inductive ComboCall
  | add (pkt : Packet) (newctx : Option Rfc815ctx)
  | promote (newctx : Option Rfc815ctx)

namespace ComboCall

/-- The call on a context. -/
def apply (ctx : Comboctx) : ComboCall → Option Comboctx
  | add pkt newctx => comboctxAdd newctx ctx pkt
  | promote newctx => comboctxPromote newctx ctx

/-- The packet that is added. -/
def packet? : ComboCall → Option Packet
  | add pkt _ => some pkt
  | promote _ => none

/-- The same call with a `malloc` that fails, so that it promotes nothing. -/
def failing : ComboCall → ComboCall
  | add pkt _ => add pkt none
  | promote _ => promote none

end ComboCall

/-- A sequence of calls on a fresh context. -/
def comboctxRun (calls : List ComboCall) : Option Comboctx :=
  calls.foldlM ComboCall.apply comboctxInit

theorem comboctxRun_append_singleton (calls : List ComboCall) (c : ComboCall) :
    comboctxRun (calls ++ [c]) = (comboctxRun calls).bind c.apply := by
  simp [comboctxRun, foldlM_append]

/-! ## One of the two engines after all packets -/

/-- One of the two engines after the packets `pkts`. -/
def ComboU.After (pkts : List Packet) : ComboU → Prop
  | .reass ctx => ctx = reassctxRun pkts
  | .rfc ctx => ∃ ctx0, rfc815ctxRun ctx0 pkts = some ctx

theorem reassctxRun_append_singleton (pkts : List Packet) (pkt : Packet) :
    reassctxRun (pkts ++ [pkt]) = reassctxAdd (reassctxRun pkts) pkt := by
  simp [reassctxRun]

variable {ctx : Comboctx} {e : Endian} {p : Packet} {src : ℕ → UInt8} {rest : List Packet}

/-- Promotion does not lose a packet: the list has all of them, in order. -/
theorem comboctxPromote_after {pkts : List Packet} (hfit : FitsBuffer pkts) (h : ctx.u.After pkts)
    (newctx : Option Rfc815ctx) :
    ∃ ctx', comboctxPromote newctx ctx = some ctx' ∧ ctx'.u.After pkts := by
  obtain ⟨count, u⟩ := ctx
  cases u with
  | rfc rfc => exact ⟨_, rfl, h⟩
  | reass reass =>
    cases newctx with
    | none => exact ⟨_, rfl, h⟩
    | some newctx =>
      obtain rfl : reass = reassctxRun pkts := h
      obtain ⟨rfc, gs, hrun, -⟩ := rfc815ctxRun_inv
        { newctx with pkt := fun i => if i < pktSize then 0 else newctx.pkt i } hfit
      refine ⟨⟨count, .rfc rfc⟩, ?_, _, hrun⟩
      simp only [comboctxPromote, reassctxRun_packetList]
      exact bind_eq_some_iff.mpr ⟨rfc, hrun, rfl⟩

theorem comboctxAdd_after {pkts : List Packet} {pkt : Packet} (hfit : FitsBuffer (pkts ++ [pkt]))
    (h : ctx.u.After pkts) (newctx : Option Rfc815ctx) :
    ∃ ctx', comboctxAdd newctx ctx pkt = some ctx' ∧ ctx'.u.After (pkts ++ [pkt]) := by
  have hfit' := (fitsBuffer_append_singleton hfit).1
  obtain ⟨⟨count, u⟩, hpromote, hu⟩ : ∃ ctx',
    (if ctx.rfcActive = false ∧ ctx.packetCount > 65535 / 1514
      then comboctxPromote newctx ctx else some ctx) = some ctx' ∧ ctx'.u.After pkts := by
    split_ifs
    · exact comboctxPromote_after hfit' h newctx
    · exact ⟨ctx, rfl, h⟩
  rw [comboctxAdd, hpromote]
  cases u with
  | reass reass =>
    obtain rfl : reass = reassctxRun pkts := hu
    exact ⟨_, rfl, (reassctxRun_append_singleton pkts pkt).symm⟩
  | rfc rfc =>
    obtain ⟨ctx0, hrfc⟩ := hu
    obtain ⟨rfc', gs, hrun, -⟩ := rfc815ctxRun_inv ctx0 hfit
    have hadd : rfc815ctxAdd rfc pkt = some rfc' := by
      rw [rfc815ctxRun_append, hrfc] at hrun
      exact hrun
    exact ⟨⟨count + 1, .rfc rfc'⟩, by simp [hadd], ctx0, hrun⟩

theorem filterMap_packet?_append (calls : List ComboCall) (c : ComboCall) :
    (calls ++ [c]).filterMap ComboCall.packet? =
      calls.filterMap ComboCall.packet? ++ c.packet?.toList := by
  cases c <;> simp [ComboCall.packet?]

/-- After any calls whose packets stay in the buffer: nothing was aborted, and the context is one of
the two engines after all packets. -/
theorem comboctxRun_inv {calls : List ComboCall}
    (hfit : FitsBuffer (calls.filterMap ComboCall.packet?)) :
    ∃ ctx, comboctxRun calls = some ctx ∧ ctx.u.After (calls.filterMap ComboCall.packet?) := by
  induction calls using reverseRecOn with
  | nil => exact ⟨_, rfl, rfl⟩
  | append_singleton calls c ih =>
    rw [filterMap_packet?_append] at hfit ⊢
    cases c with
    | add pkt newctx =>
      obtain ⟨ctx, hrun, h⟩ := ih (fitsBuffer_append_singleton hfit).1
      obtain ⟨ctx', hadd, h'⟩ := comboctxAdd_after hfit h newctx
      exact ⟨ctx', by rw [comboctxRun_append_singleton, hrun]; exact hadd, h'⟩
    | promote newctx =>
      simp only [ComboCall.packet?, toList_none, append_nil] at hfit ⊢
      obtain ⟨ctx, hrun, h⟩ := ih hfit
      obtain ⟨ctx', hpromote, h'⟩ := comboctxPromote_after hfit h newctx
      exact ⟨ctx', by rw [comboctxRun_append_singleton, hrun]; exact hpromote, h'⟩

theorem comboctxRun_failing (calls : List ComboCall) :
    ∃ count, comboctxRun (calls.map ComboCall.failing) =
      some ⟨count, .reass (reassctxRun (calls.filterMap ComboCall.packet?))⟩ := by
  induction calls using reverseRecOn with
  | nil => exact ⟨0, rfl⟩
  | append_singleton calls c ih =>
    obtain ⟨count, hrun⟩ := ih
    rw [map_append, map_singleton, comboctxRun_append_singleton, hrun, filterMap_packet?_append]
    cases c with
    | add pkt newctx =>
      refine ⟨count + 1, ?_⟩
      simp only [ComboCall.failing, ComboCall.packet?, ComboCall.apply, bind_some,
        toList_some, reassctxRun_append_singleton, comboctxAdd, comboctxPromote, ite_self]
      rfl
    | promote newctx =>
      refine ⟨count, ?_⟩
      simp [ComboCall.failing, ComboCall.packet?, ComboCall.apply, comboctxPromote]

/-! ## What the two engines put together -/

/-- Fragments that agree with each other: every packet has a header of at least 20 bytes and passes
the checks of the engines, no fragment ends behind byte 65514, fragments with a common byte agree on
it, and no fragment passes the end of a last fragment. -/
structure Compatible (pkts : List Packet) : Prop where
  hdrLen : ∀ p ∈ pkts, 20 ≤ ipHdrLen p.data ipOff
  accepted : ∀ p ∈ pkts, p.accept.isSome = true
  last_le : ∀ f ∈ pkts.filterMap Packet.accept, f.last ≤ 65514
  agree : ∀ p ∈ pkts, ∀ q ∈ pkts, ∀ f g, p.accept = some f → q.accept = some g →
    ∀ i, f.Has i → g.Has i → p.data (ipPayload p.data ipOff + (i - f.first)) =
      q.data (ipPayload q.data ipOff + (i - g.first))
  ends : ∀ f ∈ pkts.filterMap Packet.accept, f.more = false →
    ∀ g ∈ pkts.filterMap Packet.accept, g.last ≤ f.last

namespace Compatible

variable {pkts pkts' : List Packet}

theorem mono (h : Compatible pkts) (hsub : pkts' ⊆ pkts) : Compatible pkts' := by
  have hmem : ∀ f ∈ pkts'.filterMap Packet.accept, f ∈ pkts.filterMap Packet.accept :=
    fun f hf => by
    obtain ⟨p, hp, hacc⟩ := mem_filterMap.mp hf
    exact mem_filterMap.mpr ⟨p, hsub hp, hacc⟩
  exact ⟨fun p hp => h.hdrLen p (hsub hp), fun p hp => h.accepted p (hsub hp),
    fun f hf => h.last_le f (hmem f hf), fun p hp q hq => h.agree p (hsub hp) q (hsub hq),
    fun f hf hm g hg => h.ends f (hmem f hf) hm g (hmem g hg)⟩

theorem exists_payload (h : Compatible pkts) :
    ∃ src : ℕ → UInt8, ∀ p ∈ pkts, ∀ f, p.accept = some f → ∀ i, f.Has i →
      p.data (ipPayload p.data ipOff + (i - f.first)) = src i := by
  have hbyte : ∀ i, ∃ b : UInt8, ∀ p ∈ pkts, ∀ f, p.accept = some f → f.Has i →
      p.data (ipPayload p.data ipOff + (i - f.first)) = b := by
    intro i
    by_cases hex : ∃ q ∈ pkts, ∃ g, q.accept = some g ∧ g.Has i
    · obtain ⟨q, hq, g, hg, hi⟩ := hex
      exact ⟨_, fun p hp f hf hfi => h.agree p hp q hq f g hf hg i hfi hi⟩
    · exact ⟨0, fun p hp f hf hfi => absurd ⟨p, hp, f, hf, hfi⟩ hex⟩
  choose src hsrc using hbyte
  exact ⟨src, fun p hp f hf i hi => hsrc i p hp f hf hi⟩

theorem le_mostRestrictingLast (h : Compatible pkts) {f : Frag}
    (hf : f ∈ pkts.filterMap Packet.accept) :
    f.last ≤ mostRestrictingLast (pkts.filterMap Packet.accept) := by
  by_cases hlt : mostRestrictingLast (pkts.filterMap Packet.accept) < 65535
  · obtain ⟨g, hg, hm, hl⟩ := exists_last_of_lt hlt
    exact hl ▸ h.ends g hg hm f hf
  · have := f.lt
    omega

end Compatible

/-- The datagram with the payload bytes `src` up to `last` behind the rewritten header of the packet
`p`. -/
structure IsDatagram (e : Endian) (p : Packet) (last : ℕ) (src : ℕ → UInt8) (r : Packet) :
  Prop where
  sz : r.sz = 14 + ipHdrLen p.data ipOff + last + 1
  header : ∃ m, rewriteHeader e p.data ipOff 0 false (ipHdrLen p.data ipOff + last + 1)
    (ipHdrLen p.data ipOff) = some m ∧ ∀ j < 14 + ipHdrLen p.data ipOff, r.data j = m j
  payload : ∀ i ≤ last, r.data (14 + ipHdrLen p.data ipOff + i) = src i

theorem IsDatagram.same_bytes {r r' : Packet} {last : ℕ} (h : IsDatagram e p last src r)
    (h' : IsDatagram e p last src r') : r.sz = r'.sz ∧ ∀ j < r.sz, r.data j = r'.data j := by
  refine ⟨h.sz.trans h'.sz.symm, fun j hj => ?_⟩
  by_cases hhdr : j < 14 + ipHdrLen p.data ipOff
  · obtain ⟨m, hm, hr⟩ := h.header
    obtain ⟨m', hm', hr'⟩ := h'.header
    rw [hm, some.injEq] at hm'
    rw [hr j hhdr, hr' j hhdr, hm']
  · obtain ⟨i, rfl⟩ := Nat.exists_eq_add_of_le (not_lt.mp hhdr)
    have hi : i ≤ last := by
      rw [h.sz] at hj
      omega
    rw [h.payload i hi, h'.payload i hi]

theorem copyLen_of_accept {w mrl : ℕ} {f : Frag} (hacc : p.accept = some f) (hle : f.last ≤ mrl) :
    p.dataFirst = f.first ∧ copyLen w mrl p = f.last + 1 - f.first := by
  obtain ⟨hbad, -, hfirst, hlast, -⟩ := (Packet.accept_eq_some_iff p).mp hacc
  simp only [Packet.badLength, Bool.or_eq_false_iff, decide_eq_false_iff_not, not_le] at hbad
  have htotal := ipTotalLen_lt p.data ipOff
  have hlen : p.len = f.last + 1 - f.first := by
    rw [Packet.len, hfirst, hlast, Packet.dataLast, Packet.dataFirst]
    omega
  have hfl := f.le
  exact ⟨hfirst.symm, by rw [copyLen, hlen, ← hfirst, if_neg (by omega)]⟩

/-- What a packet list is put together to, for fragments that agree with each other. -/
theorem reassembleList_isDatagram {w mrl : ℕ} (h : Compatible (p :: rest))
    (hsrc : ∀ q ∈ p :: rest, ∀ f, q.accept = some f → ∀ i, f.Has i →
      q.data (ipPayload q.data ipOff + (i - f.first)) = src i)
    (hmrl : mrl = mostRestrictingLast ((p :: rest).filterMap Packet.accept))
    (hcov : ∀ i ≤ mrl, Covered ((p :: rest).filterMap Packet.accept) i) (alloc : Packet) :
    ∃ r, reassembleList e w (some alloc) (p :: rest) mrl = some (some r) ∧
      IsDatagram e p mrl src r := by
  have h20 := h.hdrLen p (by simp)
  have hcopy : ∀ j < ipOff + ipHdrLen p.data ipOff,
      memcpy alloc.data 0 p.data 0 (14 + ipHdrLen p.data ipOff) j = p.data j := fun j hj => by
    rw [memcpy_of_mem (by omega) (by simpa using hj), Nat.sub_zero, Nat.zero_add]
  obtain ⟨m, n, hm, hn, hmn⟩ := rewriteHeader_copy e false (ipHdrLen p.data ipOff + mrl + 1)
    hcopy rfl h20
  have hpay : ipPayload m ipOff = 14 + ipHdrLen p.data ipOff := by
    have h0 := (rewriteHeader_eq_some hn).2.1
    rw [ipPayload, ipHdrLen_congr ((hmn ipOff (by omega)).trans h0)]
  refine ⟨Reassembly.packet ⟨p.direction, 14 + ipHdrLen p.data ipOff + mrl + 1, m,
      (p :: rest).map (reassembleCopy w mrl (ipPayload m ipOff))⟩, ?_, rfl,
    ⟨n, hn, fun j hj => ?_⟩, fun i hi => ?_⟩
  · simp only [reassembleList, reassembleSteps, etherHdrLen, hm, bind_eq_bind, bind_some, map_some]
  · exact (exec_reassembleCopy_of_lt (hpay ▸ hj) _ _).trans (hmn j hj)
  · obtain ⟨f, hf, hfi⟩ := hcov i hi
    obtain ⟨q, hq, hacc⟩ := mem_filterMap.mp hf
    simp only [Reassembly.packet, hpay]
    refine exec_reassembleCopy src (fun q hq j hj => ?_) m ⟨q, hq, ?_⟩
    · obtain ⟨f, hf⟩ := isSome_iff_exists.mp (h.accepted q hq)
      obtain ⟨hfirst, hlen⟩ := copyLen_of_accept (w := w) hf
        (hmrl ▸ h.le_mostRestrictingLast (mem_filterMap.mpr ⟨q, hq, hf⟩))
      rw [hlen] at hj
      have := hsrc q hq f hf (f.first + j) ⟨by omega, by omega⟩
      rw [hfirst, ← this]
      congr 2
      omega
    · obtain ⟨hfirst, hlen⟩ := copyLen_of_accept (w := w) hacc
        (hmrl ▸ h.le_mostRestrictingLast (mem_filterMap.mpr ⟨q, hq, hacc⟩))
      rw [hfirst, hlen]
      have := hfi.1
      have := hfi.2
      omega

/-- What a buffer is put together to, for fragments that agree with each other. -/
theorem PktBuf.reassemble_isDatagram {b : PktBuf} (h : Compatible (p :: rest))
    (hk : Keeps (p :: rest) b) (hbuf : BufInv src (p :: rest) b)
    (hcov : ∀ i ≤ b.mostRestrictingLast, Covered ((p :: rest).filterMap Packet.accept) i)
    (alloc : Packet) :
    ∃ r, b.reassemble e (some alloc) = some (some r) ∧
      IsDatagram e p b.mostRestrictingLast src r := by
  have h20 := h.hdrLen p (by simp)
  have hle := ipHdrLen_le p.data ipOff
  obtain ⟨f, hf⟩ := isSome_iff_exists.mp (h.accepted p (by simp))
  have hbad := ((Packet.accept_eq_some_iff p).mp hf).1
  have hfind : (p :: rest).find? (fun p => !p.badLength) = some p := by simp [hbad]
  have hlen : b.hdrLen = 14 + ipHdrLen p.data ipOff := by
    rw [hk.hdrLen, hfind]
    rfl
  have hl16 : (b.hdrLen + 65536 - 14) % 65536 = ipHdrLen p.data ipOff := by omega
  have hcopy : ∀ j < ipOff + ipHdrLen p.data ipOff,
      memcpy alloc.data 0 b.pktHeader 0 b.hdrLen j = p.data j := fun j hj => by
    have hj' : j < b.hdrLen := by rw [hlen]; exact hj
    rw [memcpy_of_mem (by omega) (by omega), Nat.sub_zero, Nat.zero_add, hk.header p hfind j hj']
  obtain ⟨m, n, hm, hn, hmn⟩ := rewriteHeader_copy e false
    (ipHdrLen p.data ipOff + b.mostRestrictingLast + 1) hcopy rfl h20
  refine ⟨⟨b.direction, b.hdrLen + b.mostRestrictingLast + 1,
      memcpy m b.hdrLen b.pkt 0 (b.mostRestrictingLast + 1)⟩,
    by simp only [PktBuf.reassemble, hl16, hm, bind_eq_bind, bind_some],
    by simp only [hlen], ⟨n, hn, fun j hj => ?_⟩, fun i hi => ?_⟩
  · exact (memcpy_of_notMem (by omega)).trans (hmn j hj)
  · refine (memcpy_of_mem (by omega) (by omega)).trans ?_
    rw [Nat.zero_add, hlen, Nat.add_sub_cancel_left]
    rw [hk.last] at hcov
    exact hbuf.data i hi ((forall_covered_iff _).mp hcov i)

/-! ## Promotion -/

theorem ComboU.After.complete {pkts : List Packet} (h : Compatible pkts) (hctx : ctx.u.After pkts) :
    ∃ b, comboctxComplete ctx = some b ∧
      (b = true ↔ ∀ i ≤ mostRestrictingLast (pkts.filterMap Packet.accept),
        Covered (pkts.filterMap Packet.accept) i) := by
  obtain ⟨count, u⟩ := ctx
  cases u with
  | reass reass =>
    obtain rfl : reass = reassctxRun pkts := hctx
    refine ⟨_, rfl, ?_⟩
    rw [reassctxComplete_iff (reassctxRun_inv pkts), (reassctxRun_inv pkts).last]
  | rfc rfc =>
    obtain ⟨ctx0, hrun⟩ := hctx
    obtain ⟨rfc', gs, hrun', hinv⟩ := rfc815ctxRun_inv ctx0 (fitsBuffer_of_last_le h.last_le)
    obtain rfl : rfc = rfc' := some.inj (hrun.symm.trans hrun')
    exact hinv.rfc815ctxComplete_eq

theorem ComboU.After.reassemble (h : Compatible (p :: rest)) (hctx : ctx.u.After (p :: rest))
    (hsrc : ∀ q ∈ p :: rest, ∀ f, q.accept = some f → ∀ i, f.Has i →
      q.data (ipPayload q.data ipOff + (i - f.first)) = src i)
    (hcov : ∀ i ≤ mostRestrictingLast ((p :: rest).filterMap Packet.accept),
      Covered ((p :: rest).filterMap Packet.accept) i) (e : Endian) (alloc : Packet) :
    ∃ r, comboctxReassemble e (some alloc) ctx = some (some r) ∧
      IsDatagram e p (mostRestrictingLast ((p :: rest).filterMap Packet.accept)) src r := by
  obtain ⟨count, u⟩ := ctx
  cases u with
  | reass reass =>
    obtain rfl : reass = reassctxRun (p :: rest) := hctx
    simp only [comboctxReassemble, reassctxReassemble, reassctxRun_packetList,
      (reassctxRun_inv (p :: rest)).last]
    exact reassembleList_isDatagram h hsrc rfl hcov alloc
  | rfc rfc =>
    obtain ⟨ctx0, hrun⟩ := hctx
    obtain ⟨rfc', gs, hrun', -, hbuf⟩ := rfc815ctxRun_bufInv ctx0 (fitsBuffer_of_last_le h.last_le)
    obtain rfl : rfc = rfc' := some.inj (hrun.symm.trans hrun')
    have hk := rfc815ctxRun_keeps hrun
    rw [← hk.last] at hcov ⊢
    exact PktBuf.reassemble_isDatagram h hk (hbuf src hsrc) hcov alloc

/-- For every sequence of calls whose packets are compatible, whatever is promoted when and
whichever `malloc` succeeds, and after every part of the sequence: the context reports complete
exactly if the one that is never promoted does, and then both return packets of the same size with
the same bytes. -/
theorem combo_promotion_invisible {calls pre : List ComboCall}
    (h : Compatible (calls.filterMap ComboCall.packet?)) (hpre : pre <+: calls) :
    ∃ ctx never b, comboctxRun pre = some ctx ∧
      comboctxRun (pre.map ComboCall.failing) = some never ∧ never.rfcActive = false ∧
      comboctxComplete ctx = some b ∧ comboctxComplete never = some b ∧
      (b = true → ∀ e alloc alloc', ∃ r r',
        comboctxReassemble e (some alloc) ctx = some (some r) ∧
        comboctxReassemble e (some alloc') never = some (some r') ∧
        r.sz = r'.sz ∧ ∀ j < r.sz, r.data j = r'.data j) := by
  obtain ⟨post, rfl⟩ := hpre
  have hsub : pre.filterMap ComboCall.packet? ⊆ (pre ++ post).filterMap ComboCall.packet? := by
    rw [filterMap_append]
    exact subset_append_left _ _
  replace h := h.mono hsub
  obtain ⟨ctx, hrun, hctx⟩ := comboctxRun_inv (fitsBuffer_of_last_le h.last_le)
  obtain ⟨count, hfail⟩ := comboctxRun_failing pre
  obtain ⟨b, hb, hiff⟩ := hctx.complete h
  have hnever : ComboU.After (pre.filterMap ComboCall.packet?)
      (Comboctx.mk count (.reass (reassctxRun (pre.filterMap ComboCall.packet?)))).u := rfl
  obtain ⟨b', hb', hiff'⟩ := hnever.complete h
  obtain rfl : b = b' := Bool.eq_iff_iff.mpr (hiff.trans hiff'.symm)
  refine ⟨ctx, _, b, hrun, hfail, rfl, hb, hb', fun hdone e alloc alloc' => ?_⟩
  obtain ⟨src, hsrc⟩ := h.exists_payload
  have hcov := hiff.mp hdone
  -- a complete datagram has a first packet
  generalize hp : pre.filterMap ComboCall.packet? = pkts at *
  cases pkts with
  | nil => simpa using hcov 0
  | cons p rest =>
    obtain ⟨r, hr, hd⟩ := hctx.reassemble h hsrc hcov e alloc
    obtain ⟨r', hr', hd'⟩ := hnever.reassemble h hsrc hcov e alloc'
    exact ⟨r, r', hr, hr', hd.same_bytes hd'⟩

/-- A fragment with `len` payload bytes from block `block` on; byte `i` of the datagram is `i + 1`.
-/
def countingPacket (block len : ℕ) (more : Bool) : Packet where
  direction := .uplink
  sz := 34 + len
  data := fun i => if i = 14 then 0x45 else if i = 17 then .ofNat (20 + len)
    else if i = 20 then if more then 0x20 else 0 else if i = 21 then .ofNat block
    else if i < 34 then 0 else .ofNat (8 * block + (i - 34) + 1)

/-- Bytes 0 to 15, a promotion, and the last fragment with bytes 8 to 19. -/
def overlappingCalls : List ComboCall :=
  [.add (countingPacket 0 16 true) none, .promote (some zeroRfc815ctx),
    .add (countingPacket 1 12 false) none]

theorem compatible_overlappingCalls :
    Compatible (overlappingCalls.filterMap ComboCall.packet?) := by
  have hpkts : overlappingCalls.filterMap ComboCall.packet? = [countingPacket 0 16 true,
    countingPacket 1 12 false] := rfl
  have hhead : (countingPacket 0 16 true).accept =
    some ⟨0, 15, true, by decide, by decide, by decide⟩ := by decide
  have htail : (countingPacket 1 12 false).accept =
    some ⟨8, 19, false, by decide, by decide, by decide⟩ := by decide
  have hdata : ∀ p ∈ [countingPacket 0 16 true, countingPacket 1 12 false], ∀ f, p.accept = some f →
    ∀ i, f.Has i → p.data (ipPayload p.data ipOff + (i - f.first)) = .ofNat (i + 1) := by
    rw [forall_mem_cons, forall_mem_singleton, hhead, htail]
    constructor
    · rintro f ⟨⟩ i ⟨-, hi⟩
      have hall : ∀ i ≤ 15,
        (countingPacket 0 16 true).data (ipPayload (countingPacket 0 16 true).data ipOff + (i - 0))
        = .ofNat (i + 1) := by decide
      exact hall i hi
    · rintro f ⟨⟩ i ⟨hlo, hi⟩
      have hall : ∀ i ≤ 19, 8 ≤ i → (countingPacket 1 12 false).data
          (ipPayload (countingPacket 1 12 false).data ipOff + (i - 8)) = .ofNat (i + 1) := by decide
      exact hall i hi hlo
  rw [hpkts]
  refine ⟨by decide, by decide, by simp [hhead, htail], fun p hp q hq f g hf hg i hi hi' =>
    ?_, by simp [hhead, htail]⟩
  rw [hdata p hp f hf i hi, hdata q hq g hg i hi']

/-- Both contexts are complete and give the same packet. -/
theorem combo_promotion_invisible_overlappingCalls :
    Compatible (overlappingCalls.filterMap ComboCall.packet?) ∧ ∃ ctx never,
      comboctxRun overlappingCalls = some ctx ∧
      comboctxRun (overlappingCalls.map ComboCall.failing) = some never ∧
      ctx.rfcActive = true ∧ never.rfcActive = false ∧ ∃ r r',
        comboctxReassemble .little (some shortPacket) ctx = some (some r) ∧
        comboctxReassemble .little (some shortPacket) never = some (some r') ∧
        r.sz = r'.sz ∧ ∀ j < r.sz, r.data j = r'.data j := by
  obtain ⟨ctx, never, b, hrun, hfail, hnever, hb, -, hsame⟩ :=
    combo_promotion_invisible compatible_overlappingCalls (prefix_refl _)
  have hrfc : (comboctxRun overlappingCalls).any (fun ctx => ctx.rfcActive && comboctxComplete ctx =
    some true) = true := by decide +kernel
  rw [hrun, any_some, Bool.and_eq_true, decide_eq_true_iff, hb, some.injEq] at hrfc
  exact ⟨compatible_overlappingCalls, ctx, never, hrun, hfail, hrfc.1, hnever,
    hsame hrfc.2 .little shortPacket shortPacket⟩

end Pptk.Ipfrag
