import Pptk.Ipfrag.RoundTrip
import Pptk.Ipfrag.Blocks

/-!
# Engines with one packet buffer

The RFC 815 engine and the in-buffer red-black tree engine copy the payload of
every fragment into one buffer of 65535 bytes, `pkt`, in which they also keep the
descriptors of the holes. This module has the fields, the code and the facts that
the two share.

`stores` is a ghost field: the ranges of `pkt` that were written, the latest one
first. The code never looks at it.

Main results: `Touches` and `InBuffer`.
-/

namespace Pptk.Ipfrag

open Pptk.Lib Pptk.Iphdr List

/-- The fields of `struct rfc815ctx` (rfc815.h:22-30) and `struct rb815ctx` (iprb815.h:27-34) that
do not belong to the hole structure. -/
structure PktBuf where
  mostRestrictingLast : ℕ
  hdrLen : ℕ
  direction : PacketDirection
  pktHeader : Mem
  pkt : Mem
  stores : List (ℕ × ℕ)

/-- `sizeof(ctx->pkt)`. -/
abbrev pktSize : ℕ := 65535

namespace PktBuf

/-- `memcpy(&ctx->pkt[i], &src[s], n)`. -/
def store (b : PktBuf) (i : ℕ) (src : Mem) (s n : ℕ) : PktBuf :=
  { b with pkt := memcpy b.pkt i src s n, stores := (i, n) :: b.stores }

/-- The header of the first packet is kept (rfc815.c:140-144, iprb815.c:1630-1634). -/
def takeHeader (b : PktBuf) (p : Packet) : PktBuf :=
  if b.hdrLen = 0 then
    { b with
      hdrLen := 14 + ipHdrLen p.data ipOff
      pktHeader := memcpy b.pktHeader 0 p.data 0 (14 + ipHdrLen p.data ipOff) }
  else b

@[simp] theorem takeHeader_mostRestrictingLast (b : PktBuf) (p : Packet) :
    (b.takeHeader p).mostRestrictingLast = b.mostRestrictingLast := by
  unfold takeHeader
  split_ifs <;> rfl

@[simp] theorem takeHeader_pkt (b : PktBuf) (p : Packet) : (b.takeHeader p).pkt = b.pkt := by
  unfold takeHeader
  split_ifs <;> rfl

@[simp] theorem takeHeader_stores (b : PktBuf) (p : Packet) :
    (b.takeHeader p).stores = b.stores := by
  unfold takeHeader
  split_ifs <;> rfl

/-- `rfc815ctx_reassemble` (rfc815.c:13-38), `rb815ctx_reassemble` (iprb815.c:1343-1368). The result
is `none` for an `abort()` and `some none` for `NULL`. -/
def reassemble (e : Endian) (alloc : Option Packet) (b : PktBuf) : Option (Option Packet) :=
  match alloc with
  | none => some none
  | some pkt => do
    let iphdrlen := (b.hdrLen + 65536 - 14) % 65536
    let data := memcpy pkt.data 0 b.pktHeader 0 b.hdrLen
    let data ← rewriteHeader e data ipOff 0 false (iphdrlen + b.mostRestrictingLast + 1) iphdrlen
    some (some
      { direction := b.direction
        sz := b.hdrLen + b.mostRestrictingLast + 1
        data := memcpy data b.hdrLen b.pkt 0 (b.mostRestrictingLast + 1) })

end PktBuf

/-! ## Writing descriptors -/

/-- A block of the buffer, inside of it, whose bytes lie in `D`. -/
structure Slot (D : ℕ → Prop) (i : ℕ) : Prop where
  aligned : i % 8 = 0
  fits : i + 8 ≤ 65535
  mem : ∀ j, i ≤ j → j < i + 8 → D j

/-- A store that ends inside the buffer. -/
def FitsPkt (s : ℕ × ℕ) : Prop := s.1 + s.2 ≤ pktSize

/-- From `b` to `b'` only bytes of `pkt` in `D` were written, by stores in `P`. -/
structure Touches (D : ℕ → Prop) (P : ℕ × ℕ → Prop) (b b' : PktBuf) : Prop where
  last : b'.mostRestrictingLast = b.mostRestrictingLast
  hdrLen : b'.hdrLen = b.hdrLen
  pktHeader : b'.pktHeader = b.pktHeader
  pkt : ∀ i, ¬D i → b'.pkt i = b.pkt i
  stores : ∀ s ∈ b'.stores, s ∈ b.stores ∨ P s

namespace Touches

variable {D : ℕ → Prop} {P : ℕ × ℕ → Prop} {b b' b'' : PktBuf}

theorem refl (b : PktBuf) : Touches D P b b := ⟨rfl, rfl, rfl, fun _ _ => rfl, fun _ hs => .inl hs⟩

theorem trans (h : Touches D P b b') (h' : Touches D P b' b'') : Touches D P b b'' where
  last := h'.last.trans h.last
  hdrLen := h'.hdrLen.trans h.hdrLen
  pktHeader := h'.pktHeader.trans h.pktHeader
  pkt i hi := (h'.pkt i hi).trans (h.pkt i hi)
  stores s hs := (h'.stores s hs).elim (h.stores s) .inr

theorem store {i n : ℕ} (hD : ∀ j, i ≤ j → j < i + n → D j) (hP : P (i, n)) (src : Mem) (s : ℕ) :
    Touches D P b (b.store i src s n) where
  last := rfl
  hdrLen := rfl
  pktHeader := rfl
  pkt j hj := memcpy_of_notMem (by by_contra h; exact hj (hD j (by omega) (by omega)))
  stores x hx := by
    rcases mem_cons.mp hx with rfl | hx
    · exact .inr hP
    · exact .inl hx

end Touches

/-! ## Fragments that leave the descriptors inside the buffer -/

/-- The fragment fits into the buffer, and so does the descriptor of a hole that would begin behind
it: there is one only if more fragments follow and the end of the datagram is not known yet. -/
def InBuffer (last : ℕ) (f : Frag) : Prop :=
  f.last ≤ 65534 ∧ (f.last ≤ 65526 ∨ f.more = false ∨ last ≠ 65535)

/-- Every packet of the sequence is rejected, or its fragment is `InBuffer` when it arrives. -/
def FitsBuffer (pkts : List Packet) : Prop :=
  ∀ pre pkt post, pkts = pre ++ pkt :: post → ∀ f, pkt.accept = some f →
    InBuffer (mostRestrictingLast (pre.filterMap Packet.accept)) f

theorem fitsBuffer_append_singleton {pkts : List Packet} {pkt : Packet}
    (h : FitsBuffer (pkts ++ [pkt])) :
    FitsBuffer pkts ∧ ∀ f, pkt.accept = some f →
      InBuffer (mostRestrictingLast (pkts.filterMap Packet.accept)) f := by
  refine ⟨fun pre p post hp => h pre p (post ++ [pkt]) ?_, h pkts pkt [] rfl⟩
  rw [hp, append_assoc, cons_append]

theorem fitsBuffer_of_last_le {pkts : List Packet}
    (h : ∀ f ∈ pkts.filterMap Packet.accept, f.last ≤ 65514) : FitsBuffer pkts := by
  rintro pre pkt post rfl f hf
  have := h f (mem_filterMap.mpr ⟨pkt, by simp, hf⟩)
  exact ⟨by omega, .inl (by omega)⟩

/-! ## The contents of the buffer -/

/-- What a step of either engine does to the buffer: the header of the first packet is kept, and
every byte of a block that has arrived is the packet's or was there before. -/
structure BufStep (fs : List Frag) (pkt : Packet) (b b' : PktBuf) : Prop where
  last : b'.mostRestrictingLast = mostRestrictingLast (fs ++ pkt.accept.toList)
  header : (b'.hdrLen = (if pkt.badLength then b else b.takeHeader pkt).hdrLen) ∧
    b'.pktHeader = (if pkt.badLength then b else b.takeHeader pkt).pktHeader
  data : ∀ i ≤ b'.mostRestrictingLast, ¬BlockMissing (fs ++ pkt.accept.toList) i →
    (∃ f, pkt.accept = some f ∧ f.Has i ∧
      b'.pkt i = pkt.data (ipPayload pkt.data ipOff + (i - f.first))) ∨
    (i ≤ b.mostRestrictingLast ∧ ¬BlockMissing fs i ∧ b'.pkt i = b.pkt i)

namespace BufStep

variable {fs : List Frag} {pkt : Packet} {b b' : PktBuf}

/-- A packet that is rejected at once. -/
theorem of_badLength (hlast : b.mostRestrictingLast = mostRestrictingLast fs)
    (hbad : pkt.badLength = true) : BufStep fs pkt b b := by
  have hacc : pkt.accept = none := (Packet.accept_eq_none_iff pkt).mpr (.inl hbad)
  refine ⟨by simpa [hacc] using hlast, by simp [hbad], fun i hi hno => .inr ⟨hi, ?_, rfl⟩⟩
  simpa [hacc] using hno

theorem of_rejected (hlast : b.mostRestrictingLast = mostRestrictingLast fs)
    (hbad : pkt.badLength = false) (hacc : pkt.accept = none) :
    BufStep fs pkt b (b.takeHeader pkt) := by
  refine ⟨by simpa [hacc] using hlast, by simp [hbad], fun i hi hno => .inr ⟨by simpa using hi, ?_,
    by simp⟩⟩
  simpa [hacc] using hno

/-- A packet that is accepted: the bytes of blocks that had arrived are kept, unless they are
written again. -/
theorem of_accept {f : Frag} (hbad : pkt.badLength = false) (hacc : pkt.accept = some f)
    (hb : b.mostRestrictingLast = mostRestrictingLast fs)
    (hlast : b'.mostRestrictingLast = mostRestrictingLast (fs ++ [f]))
    (hhl : b'.hdrLen = (b.takeHeader pkt).hdrLen)
    (hhdr : b'.pktHeader = (b.takeHeader pkt).pktHeader)
    (hdata : ∀ i ≤ mostRestrictingLast (fs ++ [f]), ¬BlockMissing (fs ++ [f]) i →
      (f.Has i ∧ b'.pkt i = pkt.data (ipPayload pkt.data ipOff + (i - f.first))) ∨
      ¬BlockMissing fs i ∧ b'.pkt i = b.pkt i) : BufStep fs pkt b b' := by
  refine ⟨by simpa [hacc] using hlast, by simp [hbad, hhl, hhdr], fun i hi hno => ?_⟩
  rw [hacc, Option.toList_some] at hno
  rw [hlast] at hi
  rcases hdata i hi hno with ⟨h1, h2⟩ | ⟨h1, h2⟩
  · exact .inl ⟨f, hacc, h1, h2⟩
  · refine .inr ⟨?_, h1, h2⟩
    rw [hb]
    have := mostRestrictingLast_append_singleton fs f
    split_ifs at this <;> omega

end BufStep

/-- The buffer after the packets `pkts` of a payload `src`. -/
structure BufInv (src : ℕ → UInt8) (pkts : List Packet) (b : PktBuf) : Prop where
  last : b.mostRestrictingLast = mostRestrictingLast (pkts.filterMap Packet.accept)
  header : (b.hdrLen = 0 ∧ ∀ p ∈ pkts, p.badLength = true) ∨
    ∃ p ∈ pkts, b.hdrLen = 14 + ipHdrLen p.data ipOff ∧ ∀ j < b.hdrLen, b.pktHeader j = p.data j
  data : ∀ i ≤ b.mostRestrictingLast, ¬BlockMissing (pkts.filterMap Packet.accept) i →
    b.pkt i = src i

namespace BufInv

variable {src : ℕ → UInt8} {pkts : List Packet} {b b' : PktBuf}

theorem init (hlast : b.mostRestrictingLast = 65535) (hhdr : b.hdrLen = 0) : BufInv src [] b :=
  ⟨hlast, .inl ⟨hhdr, by simp⟩, fun i hi hno => by
    exact absurd ⟨by simpa [hlast] using hi, by simp⟩ hno⟩

theorem step {pkt : Packet} (h : BufInv src pkts b)
    (hs : BufStep (pkts.filterMap Packet.accept) pkt b b')
    (hsrc : ∀ f, pkt.accept = some f → ∀ i, f.Has i →
      pkt.data (ipPayload pkt.data ipOff + (i - f.first)) = src i) :
    BufInv src (pkts ++ [pkt]) b' := by
  have hfs : (pkts ++ [pkt]).filterMap Packet.accept =
      pkts.filterMap Packet.accept ++ pkt.accept.toList := by
    cases hacc : pkt.accept <;> simp [hacc]
  refine ⟨by rw [hfs]; exact hs.last, ?_, fun i hi hno => ?_⟩
  · obtain ⟨h1, h2⟩ := hs.header
    cases hbad : pkt.badLength with
    | true =>
      simp only [hbad, if_true] at h1 h2
      rw [h1, h2]
      rcases h.header with ⟨h0, hall⟩ | ⟨p, hp, hh⟩
      · refine .inl ⟨h0, fun p hp => ?_⟩
        rcases mem_append.mp hp with hp | hp
        · exact hall p hp
        · rwa [mem_singleton.mp hp]
      · exact .inr ⟨p, by simp [hp], hh⟩
    | false =>
      simp only [hbad, Bool.false_eq_true, if_false] at h1 h2
      rw [h1, h2, PktBuf.takeHeader]
      split_ifs with h0
      · refine .inr ⟨pkt, by simp, rfl, fun j hj => ?_⟩
        refine (memcpy_of_mem (Nat.zero_le _) (by simpa using hj)).trans ?_
        rw [Nat.sub_zero, Nat.zero_add]
      · rcases h.header with ⟨h0', -⟩ | ⟨p, hp, hh⟩
        · exact absurd h0' h0
        · exact .inr ⟨p, by simp [hp], hh⟩
  · rw [hfs] at hno
    rcases hs.data i hi hno with ⟨f, hacc, hhas, heq⟩ | ⟨hi', hno', heq⟩
    · rw [heq, hsrc f hacc i hhas]
    · rw [heq, h.data i hi' hno']

end BufInv

variable {ether : Mem} {sz : ℕ} {fed : List Fragment}

theorem Pieces.fitsBuffer (h : Pieces ether sz fed) (hsz : sz < 65536)
    (h20 : 20 ≤ ipHdrLen ether ipOff) : FitsBuffer (Pieces.packets fed) := by
  refine fitsBuffer_of_last_le fun f hf => ?_
  obtain ⟨-, -, -, -, hlt, -⟩ := h.of_mem_accepted hsz h20 hf
  have hpay : payloadLen ether sz = sz - 14 - ipHdrLen ether ipOff := rfl
  omega

theorem Pieces.payload_eq (h : Pieces ether sz fed) (hsz : sz < 65536)
    (h20 : 20 ≤ ipHdrLen ether ipOff) {pkt : Packet} (hp : pkt ∈ Pieces.packets fed) {f : Frag}
    (hacc : pkt.accept = some f) {i : ℕ} (hi : f.Has i) :
    pkt.data (ipPayload pkt.data ipOff + (i - f.first)) =
      ether (14 + ipHdrLen ether ipOff + i) := by
  obtain ⟨frag, -, -, hpiece⟩ := h.of_mem_packets hp
  obtain ⟨h1, h2, -⟩ := hpiece.of_accept h20 hsz hacc
  rw [Frag.Has] at hi
  have := hpiece.payload (i - f.first) (by omega)
  rw [ipPayload, hpiece.hdrLen h20]
  exact this.trans (congrArg ether (by omega))

/-- A complete buffer is put together to the original frame. -/
theorem BufInv.restores {e : Endian} {b : PktBuf} (hc : CanonicalFrame e ether sz)
    (hp : Pieces ether sz fed)
    (h : BufInv (fun i => ether (14 + ipHdrLen ether ipOff + i)) (Pieces.packets fed) b)
    (hcov : ∀ i ≤ mostRestrictingLast (Pieces.accepted fed), Covered (Pieces.accepted fed) i) :
    Restores ether sz fun alloc => PktBuf.reassemble e alloc b := by
  have hge := hc.hdrLen_ge
  have hle := hc.hdrLen_le
  have hlt := hc.lt
  have hpay : payloadLen ether sz = sz - 14 - ipHdrLen ether ipOff := rfl
  have hlast := hp.last_eq hlt hge hcov
  have hmrl : b.mostRestrictingLast + 1 = payloadLen ether sz := by rw [h.last]; exact hlast
  -- some packet has been accepted, so there is a header
  obtain ⟨p, hpmem, hhl, hhdr⟩ : ∃ p ∈ Pieces.packets fed, b.hdrLen = 14 + ipHdrLen p.data ipOff ∧
      ∀ j < b.hdrLen, b.pktHeader j = p.data j := by
    rcases h.header with ⟨-, hall⟩ | hex
    · obtain ⟨f, hf, -⟩ := hcov _ le_rfl
      obtain ⟨p, hpmem, hacc⟩ := mem_filterMap.mp hf
      have := (Packet.accept_eq_some_iff p).mp hacc
      simp [hall p hpmem] at this
    · exact hex
  obtain ⟨frag, -, -, hpiece⟩ := hp.of_mem_packets hpmem
  rw [hpiece.hdrLen hge] at hhl
  have hl16 : (b.hdrLen + 65536 - 14) % 65536 = ipHdrLen ether ipOff := by omega
  intro alloc
  set data := memcpy alloc.data 0 b.pktHeader 0 b.hdrLen with hdata
  have hcopy : ∀ j < 14 + ipHdrLen ether ipOff, data j = p.data j := fun j hj => by
    rw [hdata, memcpy_of_mem (by omega) (by omega), Nat.sub_zero, Nat.zero_add, hhdr j (by omega)]
  have hlen : ipHdrLen data ipOff = ipHdrLen ether ipOff :=
    (ipHdrLen_congr (hcopy 14 (by omega))).trans (hpiece.hdrLen hge)
  have htotal : ipHdrLen ether ipOff + b.mostRestrictingLast + 1 = ipTotalLen ether ipOff := by
    rw [hc.totalLen]
    omega
  obtain ⟨m, hm, hr⟩ := rewriteHeader_spec e data ipOff false (Nat.zero_mod 8) (by omega)
    (ipTotalLen_lt ether ipOff) hlen hge
  have hheader := hpiece.header_restored hc hcopy hr
  refine ⟨⟨b.direction, b.hdrLen + b.mostRestrictingLast + 1,
    memcpy m b.hdrLen b.pkt 0 (b.mostRestrictingLast + 1)⟩, ?_, by simp only; omega, fun j hj => ?_⟩
  · simp only [PktBuf.reassemble, hl16, htotal, ← hdata, hm, Option.bind_eq_bind, Option.bind_some]
  by_cases hjl : j < 14 + ipHdrLen ether ipOff
  · rw [← hheader j hjl]
    exact memcpy_of_notMem (.inl (hhl ▸ hjl))
  · refine (memcpy_of_mem (by omega) (by omega)).trans ?_
    rw [Nat.zero_add, h.data (j - b.hdrLen) (by omega) ((forall_covered_iff _).mp hcov _)]
    exact congrArg ether (by omega)

end Pptk.Ipfrag
