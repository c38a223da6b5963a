import Pptk.Lib.Loop
import Pptk.Iphdr.Hdr

/-!
# IPv6 extension headers

Model of `ipv6_proto_hdr_2` (iphdr/iphdr.h:740-796), which walks over the extension headers
of an IPv6 packet to the upper-layer header. Offsets count from the start `ipv6` of the
packet. The offset of the walk is a `uint16_t`, the end of the packet a `uint32_t`.

Main result: `ipv6Walk_safe_iff`.
-/

namespace Pptk.Iphdr

open Pptk.Lib List

/-! ## The walk -/

/-- `ipv6_payload_len` (iphdr.h:527-531). -/
def ipv6PayloadLen (m : Mem) (ipv6 : ℕ) : ℕ := hdrGet16n m (ipv6 + 4)

/-- `ipv6_nexthdr` (iphdr.h:533-537). -/
def ipv6Nexthdr (m : Mem) (ipv6 : ℕ) : UInt8 := m (ipv6 + 6)

/-- `ipv6_extlen` (iphdr.h:702-713). -/
def ipv6Extlen (nexthdr lenfield : UInt8) : ℕ :=
  if nexthdr = 44 then 8
  else if nexthdr = 51 then lenfield.toNat * 4 + 8
  else lenfield.toNat * 8 + 8

/-- `is_ipv6_nexthdr` (iphdr.h:715-725): hop-by-hop options, destination options, routing, fragment
and authentication headers. -/
def isIpv6Nexthdr (nexthdr : UInt8) : Bool :=
  nexthdr = 0 ∨ nexthdr = 60 ∨ nexthdr = 43 ∨ nexthdr = 44 ∨ nexthdr = 51

/-- `ipv6_frag_off` (iphdr.h:727-731). -/
def ipv6FragOff (m : Mem) (frag : ℕ) : ℕ := hdrGet16n m (frag + 2) &&& 0xFFF8

/-- The variables of `ipv6_proto_hdr_2`, and the offsets of the bytes read so far. -/
structure Ipv6Walk where
  off : ℕ
  nexthdr : UInt8
  isFragmented : Bool
  fragHdrOff : ℕ
  reads : List ℕ

/-- What `ipv6_proto_hdr_2` returns: the place of the header, its protocol and, of a fragment, the
place of the fragment header and the distance from it. -/
structure Ipv6ProtoHdr where
  off : ℕ
  proto : UInt8
  frag : Option (ℕ × ℕ)

/-- The result, `none` for the null pointer, and all bytes that have been read. -/
structure Ipv6WalkEnd where
  hdr : Option Ipv6ProtoHdr
  reads : List ℕ

/-- The return with a header (iphdr.h:775-795). -/
def Ipv6Walk.finish (s : Ipv6Walk) : Ipv6WalkEnd where
  hdr := some
    { off := s.off
      proto := s.nexthdr
      frag := if s.isFragmented then some (s.fragHdrOff, (s.off + 65536 - s.fragHdrOff) % 65536)
        else none }
  reads := s.reads

section Model

variable (m : Mem) (ipv6 tlen : ℕ)

/-- A fragment header is noted (iphdr.h:758-766); the walk stops at it if the flag is set. -/
def Ipv6Walk.noteFrag (s : Ipv6Walk) : Ipv6Walk × Bool :=
  if s.nexthdr = 44 then
    ({ s with
        isFragmented := true, fragHdrOff := s.off, reads := s.reads ++ [s.off + 2, s.off + 3] },
      ipv6FragOff m (ipv6 + s.off) > 0)
  else (s, false)

/-- The body of the loop (iphdr.h:751-774). -/
def ipv6WalkBody (s : Ipv6Walk) : Ipv6Walk ⊕ Ipv6WalkEnd :=
  if ¬isIpv6Nexthdr s.nexthdr then .inr s.finish
  else if s.off + 8 > tlen then .inr ⟨none, s.reads⟩
  else
    let (s, stop) := s.noteFrag m ipv6
    if stop then .inr s.finish
    else
      let nexthdr := m (ipv6 + s.off)
      let extlen := ipv6Extlen nexthdr (m (ipv6 + (s.off + 1)))
      let reads := s.reads ++ [s.off, s.off + 1]
      if s.off + extlen > tlen then .inr ⟨none, reads⟩
      else .inl { s with off := (s.off + extlen) % 65536, nexthdr := nexthdr, reads := reads }

/-- The variables before the loop. -/
def ipv6WalkInit : Ipv6Walk := ⟨40, ipv6Nexthdr m ipv6, false, 0, [4, 5, 6]⟩

/-- `ipv6_proto_hdr_2` (iphdr.h:740-796) returns `r`. -/
def Ipv6ProtoHdr2 (r : Ipv6WalkEnd) : Prop :=
  Returns (ipv6WalkBody m ipv6 (ipv6PayloadLen m ipv6 + 40)) (ipv6WalkInit m ipv6) r

/-- `ipv6_const_proto_hdr_2` (iphdr.h:804-860), the same text on a packet that is not written to. -/
def Ipv6ConstProtoHdr2 (r : Ipv6WalkEnd) : Prop :=
  Returns (ipv6WalkBody m ipv6 (ipv6PayloadLen m ipv6 + 40)) (ipv6WalkInit m ipv6) r

end Model

section Body

variable {m : Mem} {ipv6 tlen : ℕ} {s s' : Ipv6Walk} {r : Ipv6WalkEnd}

theorem eight_le_ipv6Extlen (t l : UInt8) : 8 ≤ ipv6Extlen t l := by
  unfold ipv6Extlen
  split_ifs <;> omega

theorem ipv6Extlen_mod_four (t l : UInt8) : ipv6Extlen t l % 4 = 0 := by
  unfold ipv6Extlen
  split_ifs <;> omega

/-- The walk stops at a fragment that is not the first one. -/
def StopsAt (m : Mem) (ipv6 off : ℕ) (nexthdr : UInt8) : Prop :=
  nexthdr = 44 ∧ 0 < ipv6FragOff m (ipv6 + off)

@[simp] theorem noteFrag_off : (s.noteFrag m ipv6).1.off = s.off := by
  unfold Ipv6Walk.noteFrag
  split_ifs <;> rfl

@[simp] theorem noteFrag_nexthdr : (s.noteFrag m ipv6).1.nexthdr = s.nexthdr := by
  unfold Ipv6Walk.noteFrag
  split_ifs <;> rfl

theorem noteFrag_snd : (s.noteFrag m ipv6).2 = true ↔ StopsAt m ipv6 s.off s.nexthdr := by
  unfold Ipv6Walk.noteFrag StopsAt
  split_ifs with h <;> simp [h]

theorem noteFrag_reads {i : ℕ} (h : i ∈ (s.noteFrag m ipv6).1.reads) :
    i ∈ s.reads ∨ i = s.off + 2 ∨ i = s.off + 3 := by
  unfold Ipv6Walk.noteFrag at h
  split_ifs at h
  · simpa using h
  · exact .inl h

theorem ipv6WalkBody_eq : ipv6WalkBody m ipv6 tlen s =
    if ¬isIpv6Nexthdr s.nexthdr then .inr s.finish
    else if s.off + 8 > tlen then .inr ⟨none, s.reads⟩
    else if (s.noteFrag m ipv6).2 then .inr (s.noteFrag m ipv6).1.finish
    else if s.off + ipv6Extlen (m (ipv6 + s.off)) (m (ipv6 + (s.off + 1))) > tlen then
      .inr ⟨none, (s.noteFrag m ipv6).1.reads ++ [s.off, s.off + 1]⟩
    else .inl
      { (s.noteFrag m ipv6).1 with
        off := (s.off + ipv6Extlen (m (ipv6 + s.off)) (m (ipv6 + (s.off + 1)))) % 65536
        nexthdr := m (ipv6 + s.off)
        reads := (s.noteFrag m ipv6).1.reads ++ [s.off, s.off + 1] } := by
  unfold ipv6WalkBody
  rcases hs : s.noteFrag m ipv6 with ⟨s', stop⟩
  have hoff : (s.noteFrag m ipv6).1.off = s.off := noteFrag_off
  rw [hs] at hoff
  simp only at hoff
  simp only [hoff]

/-- What holds when the loop goes on. -/
theorem of_ipv6WalkBody_inl : ipv6WalkBody m ipv6 tlen s = .inl s' →
    isIpv6Nexthdr s.nexthdr = true ∧ s.off + 8 ≤ tlen ∧ ¬StopsAt m ipv6 s.off s.nexthdr ∧
      s.off + ipv6Extlen (m (ipv6 + s.off)) (m (ipv6 + (s.off + 1))) ≤ tlen ∧
      s'.off = (s.off + ipv6Extlen (m (ipv6 + s.off)) (m (ipv6 + (s.off + 1)))) % 65536 ∧
      s'.nexthdr = m (ipv6 + s.off) ∧
      s'.reads = (s.noteFrag m ipv6).1.reads ++ [s.off, s.off + 1] := by
  intro h
  rw [ipv6WalkBody_eq] at h
  split_ifs at h with h1 h2 h3 h4
  obtain rfl := Sum.inl.inj h
  exact ⟨by simpa using h1, by omega, fun hstop => h3 (noteFrag_snd.mpr hstop), by omega, rfl, rfl,
    rfl⟩

/-- The converse. -/
theorem exists_ipv6WalkBody_inl (hext : isIpv6Nexthdr s.nexthdr = true) (h8 : s.off + 8 ≤ tlen)
    (hstop : ¬StopsAt m ipv6 s.off s.nexthdr)
    (hlen : s.off + ipv6Extlen (m (ipv6 + s.off)) (m (ipv6 + (s.off + 1))) ≤ tlen) :
    ∃ s', ipv6WalkBody m ipv6 tlen s = .inl s' ∧
      s'.off = (s.off + ipv6Extlen (m (ipv6 + s.off)) (m (ipv6 + (s.off + 1)))) % 65536 ∧
      s'.nexthdr = m (ipv6 + s.off) := by
  rw [ipv6WalkBody_eq, if_neg (by simpa using hext), if_neg (by omega),
    if_neg (fun h => hstop (noteFrag_snd.mp h)), if_neg (by omega)]
  exact ⟨_, rfl, rfl, rfl⟩

/-- What the loop returns, and the bytes it has read. -/
theorem ipv6WalkBody_inr (h : ipv6WalkBody m ipv6 tlen s = .inr r) :
    (∀ hdr, r.hdr = some hdr → hdr.off = s.off ∧ hdr.proto = s.nexthdr) ∧
      (∀ i ∈ r.reads, i ∈ s.reads ∨ (s.off + 8 ≤ tlen ∧ s.off ≤ i ∧ i < s.off + 4)) := by
  rw [ipv6WalkBody_eq] at h
  split_ifs at h with h1 h2 h3 h4
  all_goals obtain rfl := Sum.inr.inj h
  · exact ⟨fun hdr hh => by simp at hh, fun i hi => .inl hi⟩
  · refine ⟨fun hdr hh => ?_, fun i hi => ?_⟩
    · obtain rfl := Option.some.inj hh
      exact ⟨noteFrag_off, noteFrag_nexthdr⟩
    · rcases noteFrag_reads hi with hi | hi | hi
      · exact .inl hi
      · exact .inr ⟨by omega, by omega, by omega⟩
      · exact .inr ⟨by omega, by omega, by omega⟩
  · refine ⟨fun hdr hh => by simp at hh, fun i hi => ?_⟩
    simp only [mem_append, mem_cons, not_mem_nil, or_false] at hi
    rcases hi with hi | hi | hi
    · rcases noteFrag_reads hi with hi | hi | hi
      · exact .inl hi
      · exact .inr ⟨by omega, by omega, by omega⟩
      · exact .inr ⟨by omega, by omega, by omega⟩
    · exact .inr ⟨by omega, by omega, by omega⟩
    · exact .inr ⟨by omega, by omega, by omega⟩
  · exact ⟨fun hdr hh => by obtain rfl := Option.some.inj hh; exact ⟨rfl, rfl⟩, fun i hi => .inl hi⟩

end Body

/-! ## Safety -/

/-- The places of the headers of a packet, and their types: the walk without a bound on its offset.
-/
inductive ExtAt (m : Mem) (ipv6 tlen : ℕ) : ℕ → UInt8 → Prop
  | base : ExtAt m ipv6 tlen 40 (ipv6Nexthdr m ipv6)
  | next {off : ℕ} {t : UInt8} : ExtAt m ipv6 tlen off t → isIpv6Nexthdr t = true →
      off + 8 ≤ tlen → ¬StopsAt m ipv6 off t →
      off + ipv6Extlen (m (ipv6 + off)) (m (ipv6 + (off + 1))) ≤ tlen →
      ExtAt m ipv6 tlen (off + ipv6Extlen (m (ipv6 + off)) (m (ipv6 + (off + 1)))) (m (ipv6 + off))

/-- The walk terminates, reads no byte behind the packet, returns no place behind it and gets
forward in every iteration. -/
structure Ipv6WalkSafe (m : Mem) (ipv6 : ℕ) : Prop where
  returns : ∃ r, (Ipv6ProtoHdr2 m ipv6 r ∧ Ipv6ConstProtoHdr2 m ipv6 r) ∧
    (∀ i ∈ r.reads, i < 40 + ipv6PayloadLen m ipv6) ∧
    ∀ hdr, r.hdr = some hdr → hdr.off ≤ 40 + ipv6PayloadLen m ipv6
  forward : ∀ s s', Steps (ipv6WalkBody m ipv6 (ipv6PayloadLen m ipv6 + 40))
    (ipv6WalkInit m ipv6) s →
    ipv6WalkBody m ipv6 (ipv6PayloadLen m ipv6 + 40) s = .inl s' → s.off < s'.off

section Safe

variable {m : Mem} {ipv6 tlen : ℕ}

/-- The loop reaches every header of the chain. -/
theorem exists_steps_of_extAt {off : ℕ} {t : UInt8} (h : ExtAt m ipv6 tlen off t)
    (hoff : off < 65536) :
    ∃ s, Steps (ipv6WalkBody m ipv6 tlen) (ipv6WalkInit m ipv6) s ∧ s.off = off ∧
      s.nexthdr = t := by
  induction h with
  | base => exact ⟨_, .refl, rfl, rfl⟩
  | @next off t _ hext h8 hstop hlen ih =>
    obtain ⟨s, hsteps, rfl, rfl⟩ := ih (by omega)
    obtain ⟨s', hb, hoff', hnext⟩ := exists_ipv6WalkBody_inl hext h8 hstop hlen
    exact ⟨s', hsteps.tail hb, by rw [hoff', Nat.mod_eq_of_lt hoff], hnext⟩

theorem extAt_lt_of_forward (htlen : tlen ≤ 65575)
    (hforward : ∀ s s', Steps (ipv6WalkBody m ipv6 tlen) (ipv6WalkInit m ipv6) s →
      ipv6WalkBody m ipv6 tlen s = .inl s' → s.off < s'.off) {off : ℕ} {t : UInt8}
    (h : ExtAt m ipv6 tlen off t) : 40 ≤ off ∧ off < 65536 := by
  induction h with
  | base => exact ⟨le_rfl, by norm_num⟩
  | @next off t hat hext h8 hstop hlen ih =>
    obtain ⟨s, hsteps, rfl, rfl⟩ := exists_steps_of_extAt hat ih.2
    obtain ⟨s', hb, hoff', -⟩ := exists_ipv6WalkBody_inl hext h8 hstop hlen
    have hlt := hforward s s' hsteps hb
    omega

/-- The walk is at a header, and has read bytes of the packet only. -/
def Ipv6Walk.Good (m : Mem) (ipv6 tlen : ℕ) (s : Ipv6Walk) : Prop :=
  ExtAt m ipv6 tlen s.off s.nexthdr ∧ s.off ≤ tlen ∧ ∀ i ∈ s.reads, i < tlen

/-- Without wrap-around the loop goes forward. -/
theorem Ipv6Walk.Good.step {s s' : Ipv6Walk} (hs : s.Good m ipv6 tlen)
    (hlt : ∀ off t, ExtAt m ipv6 tlen off t → off < 65536)
    (h : ipv6WalkBody m ipv6 tlen s = .inl s') : s.off < s'.off ∧ s'.Good m ipv6 tlen := by
  obtain ⟨hext, h8, hstop, hlen, hoff, hnext, hreads⟩ := of_ipv6WalkBody_inl h
  have hat := hs.1.next hext h8 hstop hlen
  have hmod := hlt _ _ hat
  have hge := eight_le_ipv6Extlen (m (ipv6 + s.off)) (m (ipv6 + (s.off + 1)))
  rw [Nat.mod_eq_of_lt hmod] at hoff
  refine ⟨by omega, by rw [hoff, hnext]; exact hat, by omega, fun i hi => ?_⟩
  rw [hreads] at hi
  simp only [mem_append, mem_cons, not_mem_nil, or_false] at hi
  rcases hi with hi | hi | hi
  · rcases noteFrag_reads hi with hi | hi | hi
    · exact hs.2.2 i hi
    · omega
    · omega
  · omega
  · omega

end Safe

/-- The walk over the extension headers of a packet is safe exactly if no header ends behind the
offset 65535. -/
theorem ipv6Walk_safe_iff (m : Mem) (ipv6 : ℕ) :
    Ipv6WalkSafe m ipv6 ↔
      ∀ off t, ExtAt m ipv6 (ipv6PayloadLen m ipv6 + 40) off t → off < 65536 := by
  have hplen : ipv6PayloadLen m ipv6 < 65536 := hdrGet16n_lt ..
  constructor
  · intro h off t hat
    exact (extAt_lt_of_forward (by omega) h.forward hat).2
  · intro hlt
    have hinit : (ipv6WalkInit m ipv6).Good m ipv6 (ipv6PayloadLen m ipv6 + 40) := by
      refine ⟨.base, by simp only [ipv6WalkInit]; omega, fun i hi => ?_⟩
      simp only [ipv6WalkInit, mem_cons, not_mem_nil, or_false] at hi
      omega
    refine ⟨?_, ?_⟩
    · suffices h : ∃ r, Ipv6ProtoHdr2 m ipv6 r ∧ (∀ i ∈ r.reads, i < 40 + ipv6PayloadLen m ipv6) ∧
          ∀ hdr, r.hdr = some hdr → hdr.off ≤ 40 + ipv6PayloadLen m ipv6 by
        obtain ⟨r, hr, hQ⟩ := h
        exact ⟨r, ⟨hr, hr⟩, hQ⟩
      refine exists_returns (P := Ipv6Walk.Good m ipv6 (ipv6PayloadLen m ipv6 + 40))
        (fun s => ipv6PayloadLen m ipv6 + 40 - s.off) ?_ ?_ hinit
      · intro s s' hs hb
        obtain ⟨hforward, hs'⟩ := hs.step hlt hb
        have := hs'.2.1
        exact ⟨hs', by omega⟩
      · intro s r hs hb
        obtain ⟨hhdr, hreads⟩ := ipv6WalkBody_inr hb
        refine ⟨fun i hi => ?_, fun hdr hh => ?_⟩
        · rcases hreads i hi with hi | hi
          · have := hs.2.2 i hi
            omega
          · omega
        · have := (hhdr hdr hh).1
          have := hs.2.1
          omega
    · intro s s' hsteps hb
      have hs := hsteps.invariant (P := Ipv6Walk.Good m ipv6 (ipv6PayloadLen m ipv6 + 40))
        (fun _ _ hs hb => (hs.step hlt hb).2) hinit
      exact (hs.step hlt hb).1

/-- Hop-by-hop headers of 2048 bytes up to the offset 63528, and one of 2008 bytes, in a packet of
the greatest length. -/
def wrapPkt : Mem := fun i =>
  if i = 4 ∨ i = 5 then 0xff
  else if i = 63529 then 250
  else if 41 ≤ i ∧ i % 2048 = 41 then 255
  else 0

theorem extAt_wrapPkt (k : ℕ) (hk : k ≤ 31) : ExtAt wrapPkt 0 65575 (40 + 2048 * k) 0 := by
  induction k with
  | zero => exact .base
  | succ k ih =>
    have htype : wrapPkt (0 + (40 + 2048 * k)) = 0 := by
      rw [wrapPkt, if_neg (by omega), if_neg (by omega), if_neg (by omega)]
    have hlen : wrapPkt (0 + (40 + 2048 * k + 1)) = 255 := by
      rw [wrapPkt, if_neg (by omega), if_neg (by omega), if_pos (by omega)]
    have h := (ih (by omega)).next (by decide) (by omega) (fun h => absurd h.1 (by decide))
      (by rw [htype, hlen]; have : ipv6Extlen 0 255 = 2048 := by decide
          omega)
    rw [htype, hlen, show ipv6Extlen 0 255 = 2048 by decide, Nat.add_assoc,
      show 2048 * k + 2048 = 2048 * (k + 1) by ring] at h
    exact h

/-- On this packet the offset goes back to 0. -/
theorem ipv6Walk_wraps : ¬Ipv6WalkSafe wrapPkt 0 := by
  intro h
  have hplen : ipv6PayloadLen wrapPkt 0 + 40 = 65575 := by decide
  have htype : wrapPkt (0 + (40 + 2048 * 31)) = 0 := by decide
  have hlen : wrapPkt (0 + (40 + 2048 * 31 + 1)) = 250 := by decide
  have hext : ipv6Extlen 0 250 = 2008 := by decide
  have hat := (extAt_wrapPkt 31 le_rfl).next (by decide) (by norm_num)
    (fun h => absurd h.1 (by decide)) (by rw [htype, hlen, hext]; norm_num)
  rw [htype, hlen, hext, ← hplen] at hat
  have hlt := (extAt_lt_of_forward (by omega) h.forward hat).2
  omega

end Pptk.Iphdr
