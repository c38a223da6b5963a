import Pptk.Ipfrag.Fragment
import Pptk.Ipfrag.RbExplicit
import Pptk.Ipfrag.Rfc791

/-!
# Putting the packets of a list together

The linked-list, the red-black tree and the bitmap engine keep the packets in a
list and put the datagram together in the same way: the header of the first
packet is copied and rewritten, then every packet of the list is copied to its
offset. A packet that reaches behind the end is clipped. The clipped length is
computed in `unsigned` (`1U + …`) by two of them and in `size_t` by the other, so
a packet that starts behind the end is copied with a huge length.

Main results: `exec_reassembleCopy`, `copyLen_eq_card_iff` and `reassemble_clips_iff`.
-/

namespace Pptk.Ipfrag

open Pptk.Lib Pptk.Iphdr Pptk.Rbtree List Option

/-! ## The source functions -/

/-- `len = ip_total_len(iporig) - ip_hdr_len(iporig)`, a `uint16_t`. -/
def Packet.len (p : Packet) : ℕ :=
  (ipTotalLen p.data ipOff + 65536 - ipHdrLen p.data ipOff) % 65536

/-- The length given to `memcpy` for a packet of the list (ipreass.c:77-84, iprbexplicit.c:94-101,
rfc791.c:61-68). The comparison is one of `int`s; the difference is taken in `w` bits. -/
def copyLen (w mostRestrictingLast : ℕ) (p : Packet) : ℕ :=
  if p.dataFirst + p.len > mostRestrictingLast + 1 then
    (1 + mostRestrictingLast + 2 ^ w - p.dataFirst) % 2 ^ w
  else p.len

/-- A `memcpy` of `len` bytes from `src + srcOff` to byte `dst` of the new packet. -/
structure Copy where
  dst : ℕ
  src : Mem
  srcOff : ℕ
  len : ℕ

/-- Makes the copy. -/
def Copy.exec (m : Mem) (c : Copy) : Mem := memcpy m c.dst c.src c.srcOff c.len

/-- The copy that the body of the loop over the packet list makes (ipreass.c:67-85). -/
def reassembleCopy (w mostRestrictingLast pay2 : ℕ) (p : Packet) : Copy where
  dst := pay2 + p.dataFirst
  src := p.data
  srcOff := ipPayload p.data ipOff
  len := copyLen w mostRestrictingLast p

/-- A new packet with its header written, and the copies that put its payload in. None of them reads
what another one writes. -/
structure Reassembly where
  direction : PacketDirection
  sz : ℕ
  hdr : Mem
  copies : List Copy

/-- The new packet after the copies. -/
def Reassembly.packet (r : Reassembly) : Packet where
  direction := r.direction
  sz := r.sz
  data := r.copies.foldl Copy.exec r.hdr

/-- The code shared by the three engines, up to the copies. `alloc` is what `allocif_alloc` returns.
The result is `none` for an `abort()` and `some none` for `NULL`. -/
def reassembleSteps (e : Endian) (w : ℕ) (alloc : Option Packet) (packetList : List Packet)
    (mostRestrictingLast : ℕ) : Option (Option Reassembly) :=
  match packetList with
  | [] => none
  | firstPacket :: _ =>
    match alloc with
    | none => some none
    | some pkt => do
      let hdrLen := ipHdrLen firstPacket.data ipOff
      let data := memcpy pkt.data 0 firstPacket.data 0 (etherHdrLen + hdrLen)
      let data ← rewriteHeader e data ipOff 0 false (hdrLen + mostRestrictingLast + 1) hdrLen
      some (some
        { direction := firstPacket.direction
          sz := etherHdrLen + hdrLen + mostRestrictingLast + 1
          hdr := data
          copies := packetList.map (reassembleCopy w mostRestrictingLast (ipPayload data ipOff)) })

/-- The code shared by the three engines, with the copies made. -/
def reassembleList (e : Endian) (w : ℕ) (alloc : Option Packet) (packetList : List Packet)
    (mostRestrictingLast : ℕ) : Option (Option Packet) :=
  (reassembleSteps e w alloc packetList mostRestrictingLast).map (Option.map Reassembly.packet)

/-- `reassctx_reassemble` (ipreass.c:33-88). -/
def reassctxReassemble (e : Endian) (alloc : Option Packet) (ctx : Reassctx) :
    Option (Option Packet) :=
  reassembleList e 32 alloc ctx.packetList ctx.mostRestrictingLast

/-- `rfc791ctx_reassemble` (rfc791.c:17-72). -/
def rfc791ctxReassemble (e : Endian) (alloc : Option Packet) (ctx : Rfc791ctx) :
    Option (Option Packet) :=
  reassembleList e 32 alloc ctx.packetList ctx.mostRestrictingLast

/-- `rb_explicit_reassctx_reassemble` (iprbexplicit.c:50-105), which casts to `size_t`. -/
def rbExplicitReassctxReassemble (e : Endian) (alloc : Option Packet) (ctx : RbExplicitReassctx) :
    Option (Option Packet) :=
  reassembleList e 64 alloc (ctx.packetList.map Prod.snd) ctx.mostRestrictingLast

/-! ## The copy loop -/

theorem exec_reassembleCopy_eq (w mrl pay2 : ℕ) (m : Mem) (p : Packet) :
    Copy.exec m (reassembleCopy w mrl pay2 p) =
      memcpy m (pay2 + p.dataFirst) p.data (ipPayload p.data ipOff) (copyLen w mrl p) := rfl

variable {w mrl : ℕ}

/-- The copies leave what lies in front of the payload. -/
theorem exec_reassembleCopy_of_lt {pay2 j : ℕ} (h : j < pay2) (pkts : List Packet) (m : Mem) :
    (pkts.map (reassembleCopy w mrl pay2)).foldl Copy.exec m j = m j := by
  induction pkts generalizing m with
  | nil => rfl
  | cons p pkts ih =>
    rw [map_cons, foldl_cons, ih, exec_reassembleCopy_eq, memcpy_of_notMem (by omega)]

/-- If every packet copies bytes of `src`, then every byte that some packet copies is that of `src`,
whichever packet was copied last. -/
theorem exec_reassembleCopy {pay2 : ℕ} (src : ℕ → UInt8) {pkts : List Packet}
    (h : ∀ p ∈ pkts, ∀ j < copyLen w mrl p,
      p.data (ipPayload p.data ipOff + j) = src (p.dataFirst + j)) (m : Mem) {i : ℕ}
    (hi : ∃ p ∈ pkts, p.dataFirst ≤ i ∧ i < p.dataFirst + copyLen w mrl p) :
    (pkts.map (reassembleCopy w mrl pay2)).foldl Copy.exec m (pay2 + i) = src i := by
  induction pkts using reverseRecOn with
  | nil => simp at hi
  | append_singleton pkts p ih =>
    rw [map_append, foldl_append, map_singleton, foldl_cons, foldl_nil, exec_reassembleCopy_eq]
    by_cases hp : p.dataFirst ≤ i ∧ i < p.dataFirst + copyLen w mrl p
    · have hsrc := h p (by simp) (i - p.dataFirst) (by omega)
      rw [show p.dataFirst + (i - p.dataFirst) = i by omega] at hsrc
      rw [memcpy_of_mem (by omega) (by omega), ← hsrc]
      congr 1
      omega
    · obtain ⟨q, hq, hqi⟩ := hi
      rw [memcpy_of_notMem (by omega)]
      refine ih (fun r hr => h r (by simp [hr])) ⟨q, ?_, hqi⟩
      rcases mem_append.mp hq with hq | hq
      · exact hq
      · rw [mem_singleton] at hq
        exact absurd (hq ▸ hqi) hp

/-! ## The length copied -/

/-- The payload bytes of a packet that belong to the datagram: those of the accepted fragment, up to
the end. -/
def clippedPayload (mostRestrictingLast : ℕ) (p : Packet) : Finset ℕ :=
  match p.accept with
  | none => ∅
  | some f => (Finset.Icc f.first f.last).filter (· ≤ mostRestrictingLast)

/-- A packet that the copy loop clips to the right length: an accepted one starts at most one byte
behind the end, another one has no bytes in front of the end or starts right behind it. -/
def InReach (mostRestrictingLast : ℕ) (p : Packet) : Prop :=
  if p.accept.isSome then p.dataFirst ≤ mostRestrictingLast + 1
  else p.dataFirst = mostRestrictingLast + 1 ∨ p.len = 0 ∧ p.dataFirst ≤ mostRestrictingLast

theorem dataFirst_lt (p : Packet) : p.dataFirst < 65536 := by
  have := ipFragOff_le p.data ipOff
  rw [Packet.dataFirst]
  omega

theorem wrapped_sub {a b : ℕ} (hw : 32 ≤ w) (ha : a ≤ 65536) (hb : b < 65536) :
    (a + 2 ^ w - b) % 2 ^ w = if b ≤ a then a - b else a + 2 ^ w - b := by
  have h32 : 2 ^ 32 ≤ 2 ^ w := Nat.pow_le_pow_right (by omega) hw
  split_ifs with h
  · rw [show a + 2 ^ w - b = a - b + 2 ^ w by omega, Nat.add_mod_right, Nat.mod_eq_of_lt (by omega)]
  · exact Nat.mod_eq_of_lt (by omega)

theorem len_of_accept {p : Packet} {f : Frag} (h : p.accept = some f) :
    p.dataFirst = f.first ∧ p.dataFirst + p.len = f.last + 1 ∧ 0 < p.len := by
  obtain ⟨hbad, -, h1, h2, -⟩ := (Packet.accept_eq_some_iff p).mp h
  have hlt := ipTotalLen_lt p.data ipOff
  simp only [Packet.badLength, Bool.or_eq_false_iff, decide_eq_false_iff_not] at hbad
  rw [Packet.dataFirst] at h1
  rw [Packet.dataLast] at h2
  rw [Packet.dataFirst, Packet.len]
  omega

theorem card_clippedPayload {p : Packet} {f : Frag} (h : p.accept = some f) :
    (clippedPayload mrl p).card = min f.last mrl + 1 - f.first := by
  have hfilter : (Finset.Icc f.first f.last).filter (· ≤ mrl) =
    Finset.Icc f.first (min f.last mrl) := by
    ext i
    simp only [Finset.mem_filter, Finset.mem_Icc, le_min_iff]
    tauto
  rw [clippedPayload, h]
  simp only [hfilter, Nat.card_Icc]

/-- The length copied from a packet is that of its clipped payload exactly when the packet is in
reach. -/
theorem copyLen_eq_card_iff (hw : 32 ≤ w) (hmrl : mrl ≤ 65535) (p : Packet) :
    copyLen w mrl p = (clippedPayload mrl p).card ↔ InReach mrl p := by
  have hfirst := dataFirst_lt p
  have hsub := wrapped_sub hw (show 1 + mrl ≤ 65536 by omega) hfirst
  have h32 : 2 ^ 32 ≤ 2 ^ w := Nat.pow_le_pow_right (by omega) hw
  cases hacc : p.accept with
  | none =>
    have hlen : p.len < 65536 := Nat.mod_lt _ (by omega)
    simp only [copyLen, clippedPayload, hacc, InReach, Finset.card_empty, isSome_none,
      Bool.false_eq_true, if_false, hsub]
    split_ifs <;> omega
  | some f =>
    obtain ⟨h1, h2, h3⟩ := len_of_accept hacc
    have := f.le
    have := f.lt
    rw [card_clippedPayload hacc]
    simp only [copyLen, InReach, hacc, isSome_some, if_true, hsub]
    split_ifs <;> omega

/-! ## The copies of the three engines -/

/-- The copy of the clipped payload to its own offset in the payload at `pay2`. -/
def clippedCopy (mostRestrictingLast pay2 : ℕ) (p : Packet) : Copy where
  dst := pay2 + p.dataFirst
  src := p.data
  srcOff := ipPayload p.data ipOff
  len := (clippedPayload mostRestrictingLast p).card

/-- A `reassemble` function gets to its copies and returns the packet with the payload that they
make: one copy for each packet of the list, of its clipped payload. -/
def ClipsPayloads (packetList : List Packet) (mostRestrictingLast : ℕ)
    (steps : Option (Option Reassembly)) (result : Option (Option Packet)) : Prop :=
  ∃ r out, steps = some (some r) ∧ result = some (some out) ∧
    r.copies = packetList.map (clippedCopy mostRestrictingLast (ipPayload r.hdr ipOff)) ∧
    out.data = r.copies.foldl Copy.exec r.hdr

/-- The header of the first packet has at least 20 bytes, and all packets are in reach. -/
def Clippable (packetList : List Packet) (mostRestrictingLast : ℕ) : Prop :=
  (∃ p ∈ packetList.head?, 20 ≤ ipHdrLen p.data ipOff) ∧
    ∀ p ∈ packetList, InReach mostRestrictingLast p

theorem reassembleCopy_eq_iff (hw : 32 ≤ w) (hmrl : mrl ≤ 65535) (pay2 : ℕ) (p : Packet) :
    reassembleCopy w mrl pay2 p = clippedCopy mrl pay2 p ↔ InReach mrl p := by
  rw [← copyLen_eq_card_iff hw hmrl]
  simp [reassembleCopy, clippedCopy]

/-- `reassemble` gets to its copies only with a first packet whose header has at least 20 bytes; a
shorter one makes `ip_set_hdr_cksum_calc` abort. -/
theorem copies_of_reassembleSteps {e : Endian} {new : Packet} {packetList : List Packet}
    {r : Reassembly} (h : reassembleSteps e w (some new) packetList mrl = some (some r)) :
    (∃ p ∈ packetList.head?, 20 ≤ ipHdrLen p.data ipOff) ∧
      r.copies = packetList.map (reassembleCopy w mrl (ipPayload r.hdr ipOff)) := by
  cases packetList with
  | nil => simp [reassembleSteps] at h
  | cons p rest =>
    simp only [reassembleSteps, bind_eq_bind, bind_eq_some_iff, some.injEq] at h
    obtain ⟨m, hm, rfl⟩ := h
    exact ⟨⟨p, rfl, (rewriteHeader_eq_some hm).1⟩, rfl⟩

theorem exists_reassembleSteps (e : Endian) (w mrl : ℕ) (new : Packet) {packetList : List Packet}
    (h : ∃ p ∈ packetList.head?, 20 ≤ ipHdrLen p.data ipOff) :
    ∃ r, reassembleSteps e w (some new) packetList mrl = some (some r) := by
  obtain ⟨p, hp, h20⟩ := h
  obtain ⟨rest, rfl⟩ : ∃ rest, packetList = p :: rest := head?_eq_some_iff.mp hp
  have hcopy : ∀ j < ipOff + ipHdrLen p.data ipOff,
      memcpy new.data 0 p.data 0 (14 + ipHdrLen p.data ipOff) j = p.data j := fun j hj => by
    rw [memcpy_of_mem (by omega) (by simpa using hj), Nat.sub_zero, Nat.zero_add]
  obtain ⟨m, -, hm, -⟩ := rewriteHeader_copy e false (ipHdrLen p.data ipOff + mrl + 1) hcopy rfl h20
  simp only [reassembleSteps, etherHdrLen, hm, bind_eq_bind, bind_some]
  exact ⟨_, rfl⟩

theorem clipsPayloads_iff (e : Endian) (hw : 32 ≤ w) (new : Packet) (hmrl : mrl ≤ 65535)
    (packetList : List Packet) :
    ClipsPayloads packetList mrl (reassembleSteps e w (some new) packetList mrl)
      (reassembleList e w (some new) packetList mrl) ↔ Clippable packetList mrl := by
  have hcopies : ∀ pay2, packetList.map (reassembleCopy w mrl pay2) =
      packetList.map (clippedCopy mrl pay2) ↔ ∀ p ∈ packetList, InReach mrl p := fun pay2 =>
    map_inj_left.trans (forall₂_congr fun p _ => reassembleCopy_eq_iff hw hmrl pay2 p)
  constructor
  · rintro ⟨r, out, hr, -, heq, -⟩
    obtain ⟨h20, hr⟩ := copies_of_reassembleSteps hr
    exact ⟨h20, (hcopies _).mp (hr.symm.trans heq)⟩
  · rintro ⟨h20, hreach⟩
    obtain ⟨r, hr⟩ := exists_reassembleSteps e w mrl new h20
    refine ⟨r, r.packet, hr, by rw [reassembleList, hr]; rfl, ?_, rfl⟩
    rw [(copies_of_reassembleSteps hr).2, (hcopies _).mpr hreach]

/-- After every sequence of packets, `reassemble` copies from each stored packet exactly the part of
its payload in front of the end, to its own offset (0 bytes of a packet that was not accepted), if
and only if the first packet has a whole header and every stored packet is in reach: for the
linked-list engine, for the bitmap engine, and for the red-black tree engine in IPv4 mode. This
covers the sequences after which the engine reports complete. -/
theorem reassemble_clips_iff (e : Endian) (new : Packet) (heap : Heap RbholeLoc)
    (rbhole : RbholeLoc → Hole) (pkts : List Packet) :
    (let ctx := reassctxRun pkts;
      ClipsPayloads ctx.packetList ctx.mostRestrictingLast
        (reassembleSteps e 32 (some new) ctx.packetList ctx.mostRestrictingLast)
        (reassctxReassemble e (some new) ctx) ↔
      Clippable ctx.packetList ctx.mostRestrictingLast) ∧
    (let ctx := rfc791ctxRun pkts;
      ClipsPayloads ctx.packetList ctx.mostRestrictingLast
        (reassembleSteps e 32 (some new) ctx.packetList ctx.mostRestrictingLast)
        (rfc791ctxReassemble e (some new) ctx) ↔
      Clippable ctx.packetList ctx.mostRestrictingLast) ∧
    ∃ ctx, rbExplicitReassctxRun heap rbhole false pkts = some ctx ∧
      (ClipsPayloads (ctx.packetList.map Prod.snd) ctx.mostRestrictingLast
        (reassembleSteps e 64 (some new) (ctx.packetList.map Prod.snd) ctx.mostRestrictingLast)
        (rbExplicitReassctxReassemble e (some new) ctx) ↔
      Clippable (ctx.packetList.map Prod.snd) ctx.mostRestrictingLast) := by
  refine ⟨?_, ?_, ?_⟩
  · refine clipsPayloads_iff e (by norm_num) new ?_ _
    rw [(reassctxRun_inv pkts).last]
    exact mostRestrictingLast_le _
  · refine clipsPayloads_iff e (by norm_num) new ?_ _
    rw [(rfc791ctxRun_inv pkts).last]
    exact mostRestrictingLast_le _
  · obtain ⟨ctx, hrun, h⟩ := rbExplicitReassctxRun_inv heap rbhole pkts
    refine ⟨ctx, hrun, clipsPayloads_iff e (by norm_num) new ?_ _⟩
    rw [h.last]
    exact mostRestrictingLast_le _

/-- Payload bytes 16 to 23, with more fragments to come. -/
def farPacket : Packet where
  direction := .uplink
  sz := 42
  data := fun i => if i = 14 then 0x45 else if i = 17 then 28 else if i = 20 then 0x20
    else if i = 21 then 2 else 0

/-- Payload bytes 0 to 3, the last fragment. -/
def shortPacket : Packet where
  direction := .uplink
  sz := 38
  data := fun i => if i = 14 then 0x45 else if i = 17 then 24 else 0

/-- A packet with bytes 16 to 23 and then a last fragment with bytes 0 to 3: the datagram is
complete, and the length copied from the first packet is not the 0 bytes that lie in front of the
end. -/
theorem reassemble_overruns : let pkts := [farPacket, shortPacket]
    (reassctxComplete (reassctxRun pkts) = true ∧ ∀ e new,
      ¬ClipsPayloads (reassctxRun pkts).packetList (reassctxRun pkts).mostRestrictingLast
        (reassembleSteps e 32 (some new) (reassctxRun pkts).packetList
          (reassctxRun pkts).mostRestrictingLast)
            (reassctxReassemble e (some new) (reassctxRun pkts))) ∧
    (rfc791ctxComplete (rfc791ctxRun pkts) = true ∧ ∀ e new,
      ¬ClipsPayloads (rfc791ctxRun pkts).packetList (rfc791ctxRun pkts).mostRestrictingLast
        (reassembleSteps e 32 (some new) (rfc791ctxRun pkts).packetList
          (rfc791ctxRun pkts).mostRestrictingLast)
        (rfc791ctxReassemble e (some new) (rfc791ctxRun pkts))) ∧
    ∃ ctx, rbExplicitReassctxRun (fun _ => ⟨false, none, none, none⟩) (fun _ => ⟨0, 0⟩) false pkts =
        some ctx ∧ rbExplicitReassctxComplete ctx = true ∧ ∀ e new,
      ¬ClipsPayloads (ctx.packetList.map Prod.snd) ctx.mostRestrictingLast
        (reassembleSteps e 64 (some new) (ctx.packetList.map Prod.snd) ctx.mostRestrictingLast)
        (rbExplicitReassctxReassemble e (some new) ctx) := by
  have hfar : ∀ packetList : List Packet, farPacket ∈ packetList → ¬Clippable packetList 3 :=
    fun packetList hmem h => absurd (h.2 farPacket hmem) (by unfold InReach; decide)
  refine ⟨⟨by decide, fun e new h => ?_⟩, ⟨by decide, fun e new h => ?_⟩, _, rfl, by decide,
    fun e new h => ?_⟩
  · exact hfar _ (.head _) ((clipsPayloads_iff e (by norm_num) new (by decide) _).mp h)
  · exact hfar _ (.head _) ((clipsPayloads_iff e (by norm_num) new (by decide) _).mp h)
  · exact hfar _ (.head _) ((clipsPayloads_iff e (by norm_num) new (by decide) _).mp h)

end Pptk.Ipfrag
