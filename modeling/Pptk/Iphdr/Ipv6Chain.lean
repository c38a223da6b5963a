import Pptk.Iphdr.Ipv6Ext

/-!
# Chains of IPv6 extension headers

What `ipv6_proto_hdr_2` finds in a packet whose extension headers are well formed. It takes
the length of a header by the rule for the type of the header that follows it
(iphdr/iphdr.h:767-768: `nexthdr` is overwritten before `ipv6_extlen` is called with it), so
that it may pass over a header or end up in the middle of one.

Main results: `Aligned.finds`, `exists_misses` and `ipv6Walk_finds_iff`.
-/

namespace Pptk.Iphdr

open Pptk.Lib Function List

/-- The type of an extension header and its second byte: the length, or the reserved byte of a
fragment header. -/
structure ExtHdr where
  type : UInt8
  lenfield : UInt8
deriving DecidableEq, Repr

/-- The length of a header, by the rule of its own type. -/
def ExtHdr.len (h : ExtHdr) : ℕ := ipv6Extlen h.type h.lenfield

/-- The length of a chain of headers. -/
def chainLen (hs : List ExtHdr) : ℕ := (hs.map ExtHdr.len).sum

/-- The type of what comes first: a header of the chain or the upper-layer header. -/
def headType : List ExtHdr → UInt8 → UInt8
  | [], u => u
  | h :: _, _ => h.type

/-- From `off` on, the packet has the extension headers `hs` and then an upper-layer header of type
`u`; fragment headers have the offset 0. -/
def IsChain (m : Mem) (ipv6 : ℕ) : ℕ → List ExtHdr → UInt8 → Prop
  | _, [], u => isIpv6Nexthdr u = false
  | off, h :: hs, u =>
    isIpv6Nexthdr h.type = true ∧ m (ipv6 + off) = headType hs u ∧
      m (ipv6 + (off + 1)) = h.lenfield ∧
      (h.type = 44 → ipv6FragOff m (ipv6 + off) = 0) ∧ IsChain m ipv6 (off + h.len) hs u

/-- A packet with payload length `plen` whose extension headers are `hs`. -/
structure IsExtPkt (m : Mem) (ipv6 plen : ℕ) (hs : List ExtHdr) (u : UInt8) : Prop where
  payloadLen : ipv6PayloadLen m ipv6 = plen
  nexthdr : ipv6Nexthdr m ipv6 = headType hs u
  chain : IsChain m ipv6 40 hs u

/-- The header of type `u` at `off` is returned. -/
def Ipv6WalkEnd.Finds (r : Ipv6WalkEnd) (off : ℕ) (u : UInt8) : Prop :=
  ∃ hdr, r.hdr = some hdr ∧ hdr.off = off ∧ hdr.proto = u

/-- `ipv6_proto_hdr_2` and its variant return the upper-layer header of a packet with the extension
headers `hs`. -/
def FindsUpper (m : Mem) (ipv6 : ℕ) (hs : List ExtHdr) (u : UInt8) : Prop :=
  ∃ r, (Ipv6ProtoHdr2 m ipv6 r ∧ Ipv6ConstProtoHdr2 m ipv6 r) ∧ r.Finds (40 + chainLen hs) u

/-- The length of a header, taken by the rule of what follows it, ends where a later header starts,
from which it goes on like this up to the upper-layer header. -/
inductive Aligned (u : UInt8) : List ExtHdr → Prop
  | nil : Aligned u []
  | last {h : ExtHdr} : ipv6Extlen u h.lenfield = h.len → Aligned u [h]
  | next {h h' : ExtHdr} {skipped hs : List ExtHdr} :
      ipv6Extlen (headType (skipped ++ h' :: hs) u) h.lenfield = h.len + chainLen skipped →
      Aligned u (h' :: hs) → Aligned u (h :: (skipped ++ h' :: hs))

section Chain

variable {m : Mem} {ipv6 tlen off : ℕ} {h : ExtHdr} {hs hs' : List ExtHdr} {u : UInt8}

theorem eight_le_len (h : ExtHdr) : 8 ≤ h.len := eight_le_ipv6Extlen ..

@[simp] theorem chainLen_nil : chainLen [] = 0 := rfl

@[simp] theorem chainLen_cons : chainLen (h :: hs) = h.len + chainLen hs := by simp [chainLen]

@[simp] theorem chainLen_append : chainLen (hs ++ hs') = chainLen hs + chainLen hs' := by
  simp [chainLen]

theorem eq_nil_of_chainLen (h : chainLen hs = 0) : hs = [] := by
  cases hs with
  | nil => rfl
  | cons h' hs =>
    have := eight_le_len h'
    rw [chainLen_cons] at h
    omega

theorem IsChain.append (hc : IsChain m ipv6 off (hs ++ hs') u) :
    IsChain m ipv6 (off + chainLen hs) hs' u := by
  induction hs generalizing off with
  | nil => exact hc
  | cons h hs ih =>
    rw [chainLen_cons, ← Nat.add_assoc]
    exact ih hc.2.2.2.2

theorem IsChain.isExt_headType (hc : IsChain m ipv6 off hs u) (hne : hs ≠ []) :
    isIpv6Nexthdr (headType hs u) = true := by
  cases hs with
  | nil => exact absurd rfl hne
  | cons h hs => exact hc.1

/-! ## Aligned headers -/

variable {s : Ipv6Walk} {p : ℕ} {m' : Mem} {target : ℕ}

/-- At the start of a header with the rest of the chain aligned, whatever extension header type is
expected there, the upper-layer header is found. -/
theorem Aligned.finds (ha : Aligned u hs) (hc : IsChain m ipv6 off hs u) (hne : hs ≠ [])
    (hfit : off + chainLen hs ≤ tlen) (htlen : tlen ≤ 65535) (hoff : s.off = off)
    (hext : isIpv6Nexthdr s.nexthdr = true)
    (hfrag : s.nexthdr = 44 → ipv6FragOff m (ipv6 + off) = 0) :
    ∃ r, Returns (ipv6WalkBody m ipv6 tlen) s r ∧ r.Finds (off + chainLen hs) u := by
  induction ha generalizing off s with
  | nil => exact absurd rfl hne
  | @last h hlen =>
    obtain ⟨-, hnext, hfield, -, hupper⟩ := hc
    have h8 := eight_le_len h
    simp only [chainLen_cons, chainLen_nil, Nat.add_zero] at hfit ⊢
    have hstep : s.off + ipv6Extlen (m (ipv6 + s.off)) (m (ipv6 + (s.off + 1))) = off + h.len := by
      rw [hoff, hnext, hfield, headType, hlen]
    have hstop : ¬StopsAt m ipv6 s.off s.nexthdr := by
      rintro ⟨h44, hpos⟩
      rw [hoff, hfrag h44] at hpos
      omega
    obtain ⟨s', hb, hoff', htype⟩ :=
      exists_ipv6WalkBody_inl hext (show s.off + 8 ≤ tlen by omega) hstop (by omega)
    have hend : ipv6WalkBody m ipv6 tlen s' = .inr s'.finish := by
      rw [ipv6WalkBody_eq, if_pos]
      rw [htype, hoff, hnext, headType, hupper]
      decide
    refine ⟨_, (Returns.of_inr hend).of_inl hb, _, rfl, ?_, ?_⟩
    · simp only [hoff', hstep, Nat.mod_eq_of_lt (show off + h.len < 65536 by omega)]
    · simp only [htype, hoff, hnext, headType]
  | @next h h' skipped hs hlen ha ih =>
    obtain ⟨-, hnext, hfield, -, hrest⟩ := hc
    have h8 := eight_le_len h
    have h8' := eight_le_len h'
    have hc' := hrest.append
    simp only [chainLen_cons, chainLen_append] at hfit ⊢
    have hstep : s.off + ipv6Extlen (m (ipv6 + s.off)) (m (ipv6 + (s.off + 1))) =
        off + h.len + chainLen skipped := by
      rw [hoff, hnext, hfield, hlen, Nat.add_assoc]
    have hstop : ¬StopsAt m ipv6 s.off s.nexthdr := by
      rintro ⟨h44, hpos⟩
      rw [hoff, hfrag h44] at hpos
      omega
    obtain ⟨s', hb, hoff', htype⟩ :=
      exists_ipv6WalkBody_inl hext (show s.off + 8 ≤ tlen by omega) hstop (by omega)
    rw [hstep, Nat.mod_eq_of_lt (by omega)] at hoff'
    have hext' := hrest.isExt_headType (by simp)
    rw [hoff, hnext] at htype
    -- if a fragment header is expected, the length is 8 and no header has been passed over
    have hfrag' : s'.nexthdr = 44 → ipv6FragOff m (ipv6 + (off + h.len + chainLen skipped)) =
      0 := by
      intro h44
      rw [← htype, h44] at hlen
      have hskip : skipped = [] := eq_nil_of_chainLen (by
        have : ipv6Extlen 44 h.lenfield = 8 := rfl
        omega)
      subst hskip
      rw [htype] at h44
      exact hc'.2.2.2.1 h44
    obtain ⟨r, hr, hdr, hhdr, hroff, hrproto⟩ :=
      ih hc' (by simp) (by simp only [chainLen_cons]; omega)
      hoff' (by rw [htype]; exact hext') hfrag'
    refine ⟨r, hr.of_inl hb, hdr, hhdr, ?_, hrproto⟩
    rw [hroff, chainLen_cons]
    omega

/-! ## Headers that are not aligned -/

/-- No field of a header of the chain is in the two bytes at `p`. -/
def FreeAt : ℕ → List ExtHdr → ℕ → Prop
  | off, [], p => off ≤ p
  | off, h :: hs, p => (off + 4 ≤ p ∧ p + 2 ≤ off + h.len) ∨ FreeAt (off + h.len) hs p

theorem FreeAt.le (hp : FreeAt off hs p) : off ≤ p := by
  induction hs generalizing off with
  | nil => exact hp
  | cons h hs ih =>
    rcases hp with hp | hp
    · omega
    · exact (Nat.le_add_right ..).trans (ih hp)

theorem freeAt_end (hs : List ExtHdr) (off : ℕ) : FreeAt off hs (off + chainLen hs) := by
  induction hs generalizing off with
  | nil => exact le_rfl
  | cons h hs ih =>
    rw [chainLen_cons, ← Nat.add_assoc]
    exact .inr (ih _)

theorem freeAt_append (hp : FreeAt (off + chainLen hs) hs' p) : FreeAt off (hs ++ hs') p := by
  induction hs generalizing off with
  | nil => exact hp
  | cons h hs ih =>
    rw [chainLen_cons, ← Nat.add_assoc] at hp
    exact .inr (ih hp)

theorem ipv6FragOff_congr (h2 : m' (ipv6 + (off + 2)) = m (ipv6 + (off + 2)))
    (h3 : m' (ipv6 + (off + 3)) = m (ipv6 + (off + 3))) :
    ipv6FragOff m' (ipv6 + off) = ipv6FragOff m (ipv6 + off) := by
  rw [ipv6FragOff, ipv6FragOff, Nat.add_assoc, hdrGet16n_congr h2 h3]

theorem IsChain.congr (hc : IsChain m ipv6 off hs u)
    (hm : ∀ j, off ≤ j → m' (ipv6 + j) = m (ipv6 + j)) : IsChain m' ipv6 off hs u := by
  induction hs generalizing off with
  | nil => exact hc
  | cons h hs ih =>
    obtain ⟨hext, hnext, hfield, hfrag, hrest⟩ := hc
    refine ⟨hext, (hm _ le_rfl).trans hnext, (hm _ (by omega)).trans hfield, fun h44 => ?_,
      ih hrest fun j hj => hm j (by omega)⟩
    rw [← hfrag h44, ipv6FragOff_congr (hm _ (by omega)) (hm _ (by omega))]

theorem IsChain.of_freeAt (hc : IsChain m ipv6 off hs u) (hp : FreeAt off hs p)
    (hm : ∀ j, j ≠ p → j ≠ p + 1 → m' (ipv6 + j) = m (ipv6 + j)) : IsChain m' ipv6 off hs u := by
  induction hs generalizing off with
  | nil => exact hc
  | cons h hs ih =>
    obtain ⟨hext, hnext, hfield, hfrag, hrest⟩ := hc
    have h8 := eight_le_len h
    have hfields : ∀ j < 4, m' (ipv6 + (off + j)) = m (ipv6 + (off + j)) := by
      intro j hj
      have : off + 4 ≤ p := by
        rcases hp with hp | hp
        · exact hp.1
        · have := hp.le
          omega
      exact hm _ (by omega) (by omega)
    refine ⟨hext, (hfields 0 (by omega)).trans hnext, (hfields 1 (by omega)).trans hfield,
      fun h44 => ?_, ?_⟩
    · rw [← hfrag h44, ipv6FragOff_congr (hfields 2 (by omega)) (hfields 3 (by omega))]
    · rcases hp with hp | hp
      · -- the bytes are in this header, so the later ones do not change
        exact hrest.congr fun j hj => hm j (by omega) (by omega)
      · exact ih hrest hp

theorem locate (hs : List ExtHdr) (d : ℕ) :
    (∃ pre h post, hs = pre ++ h :: post ∧ d = chainLen pre) ∨
      (∃ pre h post k, hs = pre ++ h :: post ∧ d = chainLen pre + k ∧ 0 < k ∧ k < h.len) ∨
      chainLen hs ≤ d := by
  induction hs generalizing d with
  | nil => exact .inr (.inr (Nat.zero_le _))
  | cons h hs ih =>
    rcases Nat.eq_zero_or_pos d with rfl | hpos
    · exact .inl ⟨[], h, hs, rfl, rfl⟩
    · by_cases hin : d < h.len
      · exact .inr (.inl ⟨[], h, hs, d, rfl, by simp, hpos, hin⟩)
      · rcases ih (d - h.len) with ⟨pre, h', post, rfl, hd⟩ | ⟨pre, h', post, k, rfl, hd, hk⟩ | hd
        · exact .inl ⟨h :: pre, h', post, rfl, by rw [chainLen_cons]; omega⟩
        · exact .inr (.inl ⟨h :: pre, h', post, k, rfl, by rw [chainLen_cons]; omega, hk⟩)
        · exact .inr (.inr (by rw [chainLen_cons]; omega))

theorem chainLen_mod_four (hs : List ExtHdr) : chainLen hs % 4 = 0 := by
  induction hs with
  | nil => rfl
  | cons h hs ih =>
    have := ipv6Extlen_mod_four h.type h.lenfield
    rw [chainLen_cons, ExtHdr.len]
    omega

/-- The header of type `u` at `target` is not what the walk from `s` returns. -/
def Misses (m : Mem) (ipv6 tlen target : ℕ) (u : UInt8) (s : Ipv6Walk) : Prop :=
  ∀ r, Returns (ipv6WalkBody m ipv6 tlen) s r → ¬r.Finds target u

/-- The walk misses a header unless it returns that header at once or gets to it later. -/
theorem misses_of_step (hhere : s.off = target → s.nexthdr ≠ u)
    (hnext : ∀ s', ipv6WalkBody m ipv6 tlen s = .inl s' → Misses m ipv6 tlen target u s') :
    Misses m ipv6 tlen target u s := by
  intro r hr hfind
  cases hb : ipv6WalkBody m ipv6 tlen s with
  | inl s' => exact hnext s' hb r ((returns_inl_iff hb).mp hr) hfind
  | inr r' =>
    obtain rfl := (returns_inr_iff hb).mp hr
    obtain ⟨hdr, hhdr, hoff, hproto⟩ := hfind
    obtain ⟨h1, h2⟩ := (ipv6WalkBody_inr hb).1 hdr hhdr
    exact hhere (h1 ▸ hoff) (h2 ▸ hproto)

theorem misses_of_lt (htlen : tlen ≤ 65535) (h : target < s.off) :
    Misses m ipv6 tlen target u s := by
  intro r hr hfind
  obtain ⟨s', hsteps, hb⟩ := returns_iff.mp hr
  have hlt : target < s'.off :=
    hsteps.invariant (P := fun s => target < s.off) (fun a b ha hab => by
    obtain ⟨-, -, -, hlen, hoff, -⟩ := of_ipv6WalkBody_inl hab
    rw [Nat.mod_eq_of_lt (by omega)] at hoff
    omega) h
  obtain ⟨hdr, hhdr, hoff, -⟩ := hfind
  have := ((ipv6WalkBody_inr hb).1 hdr hhdr).1
  omega

theorem misses_of_isExt (htlen : tlen ≤ 65535) (hoff : s.off = target)
    (hext : isIpv6Nexthdr s.nexthdr = true) (hu : isIpv6Nexthdr u = false) :
    Misses m ipv6 tlen target u s := by
  apply misses_of_step
  · rintro - rfl
    rw [hext] at hu
    exact absurd hu (by decide)
  · intro s' hb
    obtain ⟨-, -, -, hlen, hoff', -⟩ := of_ipv6WalkBody_inl hb
    have h8 := eight_le_ipv6Extlen (m (ipv6 + s.off)) (m (ipv6 + (s.off + 1)))
    rw [Nat.mod_eq_of_lt (by omega)] at hoff'
    exact misses_of_lt htlen (by omega)

/-- In the middle of a header, where the walk finds the type `u` and a length that does not end at
the upper-layer header. -/
theorem misses_of_middle (htlen : tlen ≤ 65535) (hoff : s.off = p) (hp : p < target)
    (hbyte : m (ipv6 + p) = u) (hlen : p + ipv6Extlen u (m (ipv6 + (p + 1))) ≠ target)
    (hu : isIpv6Nexthdr u = false) : Misses m ipv6 tlen target u s := by
  apply misses_of_step
  · intro h
    omega
  · intro s' hb
    obtain ⟨-, -, -, hle, hoff', htype, -⟩ := of_ipv6WalkBody_inl hb
    rw [hoff, hbyte] at hle hoff' htype
    rw [Nat.mod_eq_of_lt (by omega)] at hoff'
    apply misses_of_step
    · intro h
      omega
    · intro s'' hb'
      obtain ⟨hext, -⟩ := of_ipv6WalkBody_inl hb'
      rw [htype, hu] at hext
      exact absurd hext (by decide)

theorem ipv6Extlen_upper (hu : isIpv6Nexthdr u = false) (l : UInt8) :
    ipv6Extlen u l = l.toNat * 8 + 8 := by
  simp only [isIpv6Nexthdr, decide_eq_false_iff_not, not_or] at hu
  rw [ipv6Extlen, if_neg hu.2.2.2.1, if_neg hu.2.2.2.2]

/-- If the headers are not aligned, there are two bytes outside their fields whose values lead the
walk astray. -/
theorem exists_misses (hs : List ExtHdr) (hu : isIpv6Nexthdr u = false) (htlen : tlen ≤ 65535)
    (hna : ¬Aligned u hs) (off : ℕ) :
    ∃ p v w, FreeAt off hs p ∧ ∀ m, IsChain m ipv6 off hs u → m (ipv6 + p) = v →
      m (ipv6 + (p + 1)) = w → ∀ s : Ipv6Walk, s.off = off →
      Misses m ipv6 tlen (off + chainLen hs) u s := by
  induction hn : hs.length using Nat.strongRecOn generalizing hs off with
  | ind n ih =>
    cases hs with
    | nil => exact absurd .nil hna
    | cons h rest =>
      have h8 := eight_le_ipv6Extlen (headType rest u) h.lenfield
      -- the state after the header, if the walk gets there
      have hstep : ∀ m, IsChain m ipv6 off (h :: rest) u → ∀ s s' : Ipv6Walk, s.off = off →
          ipv6WalkBody m ipv6 tlen s = .inl s' →
          s'.off = off + ipv6Extlen (headType rest u) h.lenfield ∧
          s'.nexthdr = headType rest u := by
        rintro m ⟨-, hnext, hfield, -⟩ s s' hoff hb
        obtain ⟨-, -, -, hle, hoff', htype, -⟩ := of_ipv6WalkBody_inl hb
        rw [hoff, hnext, hfield] at hoff' hle
        rw [hoff, hnext] at htype
        exact ⟨by rw [hoff', Nat.mod_eq_of_lt (by omega)], htype⟩
      have hlen := eight_le_len h
      rcases locate (h :: rest) (ipv6Extlen (headType rest u) h.lenfield) with
        ⟨pre, h', post, heq, hd⟩ | ⟨pre, h', post, k, heq, hd, hpos, hk⟩ | hd
      · -- a later header: the rest from there on is not aligned
        cases pre with
        | nil =>
          rw [chainLen_nil] at hd
          omega
        | cons h₀ skipped =>
          rw [cons_append] at heq
          obtain ⟨rfl, rfl⟩ := cons.inj heq
          rw [chainLen_cons] at hd
          have hna' : ¬Aligned u (h' :: post) := fun ha => hna (.next hd ha)
          obtain ⟨p, v, w, hp, hmiss⟩ := ih _ (by rw [← hn]; simp) (h' :: post) hna'
            (off + h.len + chainLen skipped) rfl
          refine ⟨p, v, w, .inr (freeAt_append hp), fun m hc hv hw s hoff => misses_of_step ?_ ?_⟩
          · intro hend
            rw [chainLen_cons] at hend
            omega
          · intro s' hb
            obtain ⟨hoff', -⟩ := hstep m hc s s' hoff hb
            have := hmiss m hc.2.2.2.2.append hv hw s' (by omega)
            rwa [chainLen_cons, chainLen_append, show off + (h.len + (chainLen skipped +
              chainLen (h' :: post))) = off + h.len + chainLen skipped + chainLen (h' :: post) by
                omega]
      · -- the middle of a header
        have hmod := chainLen_mod_four pre
        have hmod' := ipv6Extlen_mod_four (headType rest u) h.lenfield
        have hmod'' := ipv6Extlen_mod_four h'.type h'.lenfield
        rw [ExtHdr.len] at hk
        have hfree : FreeAt off (h :: rest) (off + ipv6Extlen (headType rest u) h.lenfield) := by
          rw [heq]
          refine freeAt_append (.inl ⟨by omega, ?_⟩)
          rw [ExtHdr.len]
          omega
        have htotal : ipv6Extlen (headType rest u) h.lenfield < chainLen (h :: rest) := by
          rw [heq, chainLen_append, chainLen_cons, ExtHdr.len]
          omega
        obtain ⟨w, hw⟩ : ∃ w : UInt8, off + ipv6Extlen (headType rest u) h.lenfield +
          ipv6Extlen u w ≠
            off + chainLen (h :: rest) := by
          have h0 := ipv6Extlen_upper hu 0
          have h1 := ipv6Extlen_upper hu 1
          rw [show (0 : UInt8).toNat = 0 from rfl] at h0
          rw [show (1 : UInt8).toNat = 1 from rfl] at h1
          by_cases hw : ipv6Extlen (headType rest u) h.lenfield + 8 = chainLen (h :: rest)
          · exact ⟨1, by omega⟩
          · exact ⟨0, by omega⟩
        refine ⟨_, u, w, hfree, fun m hc hv hw' s hoff => misses_of_step ?_ ?_⟩
        · intro hend
          rw [chainLen_cons] at hend
          omega
        · intro s' hb
          obtain ⟨hoff', -⟩ := hstep m hc s s' hoff hb
          exact misses_of_middle htlen hoff' (by omega) hv (by rwa [hw']) hu
      · -- the upper-layer header or behind it
        refine ⟨_, 0, 0, freeAt_end _ _, fun m hc _ _ s hoff => misses_of_step ?_ ?_⟩
        · intro hend
          rw [chainLen_cons] at hend
          omega
        · intro s' hb
          obtain ⟨hoff', htype⟩ := hstep m hc s s' hoff hb
          rcases hd.lt_or_eq with hlt | heq
          · exact misses_of_lt htlen (by omega)
          · cases rest with
            | nil =>
              rw [chainLen_cons, chainLen_nil] at heq
              exact absurd (.last heq.symm) hna
            | cons h' rest =>
              exact misses_of_isExt htlen (by omega)
                (by rw [htype]; exact hc.2.2.2.2.1) hu

/-! ## Packets with given headers -/

/-- Some memory with the headers of a chain. -/
def putChain (m : Mem) (ipv6 : ℕ) : ℕ → List ExtHdr → UInt8 → Mem
  | _, [], _ => m
  | off, h :: hs, u =>
    let m := putChain m ipv6 (off + h.len) hs u
    fun i => if i = ipv6 + off then headType hs u else if i = ipv6 + (off + 1) then h.lenfield
      else if i = ipv6 + (off + 2) ∨ i = ipv6 + (off + 3) then 0 else m i

theorem putChain_of_lt {i : ℕ} (hs : List ExtHdr) (off : ℕ) (hi : i < ipv6 + off) :
    putChain m ipv6 off hs u i = m i := by
  induction hs generalizing off with
  | nil => rfl
  | cons h hs ih =>
    simp only [putChain]
    rw [if_neg (by omega), if_neg (by omega), if_neg (by omega), ih _ (by omega)]

theorem isChain_putChain (m : Mem) (hs : List ExtHdr) (off : ℕ)
    (hext : ∀ h ∈ hs, isIpv6Nexthdr h.type = true) (hu : isIpv6Nexthdr u = false) :
    IsChain (putChain m ipv6 off hs u) ipv6 off hs u := by
  induction hs generalizing off with
  | nil => exact hu
  | cons h hs ih =>
    have h8 := eight_le_len h
    refine ⟨hext h mem_cons_self, by simp [putChain], by simp [putChain], fun _ => ?_, ?_⟩
    · have h2 : putChain m ipv6 off (h :: hs) u (ipv6 + (off + 2)) = 0 := by simp [putChain]
      have h3 : putChain m ipv6 off (h :: hs) u (ipv6 + (off + 3)) = 0 := by simp [putChain]
      rw [ipv6FragOff_congr (m := fun _ => 0) h2 h3]
      simp [ipv6FragOff, hdrGet16n]
    · refine (ih _ fun h' hh => hext h' (mem_cons_of_mem _ hh)).congr fun j hj => ?_
      simp only [putChain]
      rw [if_neg (by omega), if_neg (by omega), if_neg (by omega)]

end Chain

/-- In every packet of at most 65535 bytes with given extension headers the upper-layer header is
found, exactly if the headers are aligned. -/
theorem ipv6Walk_finds_iff (ipv6 plen : ℕ) (hs : List ExtHdr) (u : UInt8)
    (hext : ∀ h ∈ hs, isIpv6Nexthdr h.type = true) (hu : isIpv6Nexthdr u = false)
    (hfit : chainLen hs ≤ plen) (hplen : 40 + plen ≤ 65535) :
    (∀ m, IsExtPkt m ipv6 plen hs u → FindsUpper m ipv6 hs u) ↔ Aligned u hs := by
  constructor
  · intro hall
    by_contra hna
    obtain ⟨p, v, w, hp, hmiss⟩ := exists_misses hs hu (show plen + 40 ≤ 65535 by omega) hna 40
    -- a packet with these headers and these two bytes
    have hple := hp.le
    let base : Mem := fun i => if i = ipv6 + 6 then headType hs u
      else hdrSet16n (fun _ => 0) (ipv6 + 4) plen i
    let m : Mem := update (update (putChain base ipv6 40 hs u) (ipv6 + p) v)
      (ipv6 + (p + 1)) w
    have hm : ∀ j, j ≠ p → j ≠ p + 1 → m (ipv6 + j) = putChain base ipv6 40 hs u (ipv6 + j) := by
      intro j h1 h2
      simp only [m]
      rw [update_of_ne (by omega), update_of_ne (by omega)]
    have hlow : ∀ j < 40, m (ipv6 + j) = base (ipv6 + j) := fun j hj => by
      rw [hm j (by omega) (by omega), putChain_of_lt hs 40 (by omega)]
    have hbase : ipv6PayloadLen base ipv6 = plen := by
      have hset := hdrGet16n_hdrSet16n (fun _ => 0) (ipv6 + 4) plen
      rw [Nat.mod_eq_of_lt (by omega)] at hset
      rw [ipv6PayloadLen, ← hset]
      exact hdrGet16n_congr (if_neg (by omega)) (if_neg (by omega))
    have hpkt : IsExtPkt m ipv6 plen hs u := by
      refine ⟨?_, ?_, (isChain_putChain base hs 40 hext hu).of_freeAt hp hm⟩
      · rw [← hbase, ipv6PayloadLen, ipv6PayloadLen]
        exact hdrGet16n_congr (hlow 4 (by omega)) (hlow 5 (by omega))
      · rw [ipv6Nexthdr, hlow 6 (by omega)]
        exact if_pos rfl
    obtain ⟨r, ⟨hr, -⟩, hfind⟩ := hall m hpkt
    rw [Ipv6ProtoHdr2, hpkt.payloadLen] at hr
    exact hmiss m hpkt.chain (by simp [m]) (by simp [m]) _ rfl r hr hfind
  · intro ha m hpkt
    suffices h : ∃ r, Ipv6ProtoHdr2 m ipv6 r ∧ r.Finds (40 + chainLen hs) u by
      obtain ⟨r, hr, hfind⟩ := h
      exact ⟨r, ⟨hr, hr⟩, hfind⟩
    rw [show (∃ r, Ipv6ProtoHdr2 m ipv6 r ∧ r.Finds (40 + chainLen hs) u) = ∃ r,
      Returns (ipv6WalkBody m ipv6 (plen + 40)) (ipv6WalkInit m ipv6) r ∧
        r.Finds (40 + chainLen hs) u by simp only [Ipv6ProtoHdr2, hpkt.payloadLen]]
    by_cases hne : hs = []
    · subst hne
      have hend : ipv6WalkBody m ipv6 (plen + 40) (ipv6WalkInit m ipv6) =
          .inr (ipv6WalkInit m ipv6).finish := by
        rw [ipv6WalkBody_eq, if_pos]
        simp only [ipv6WalkInit, hpkt.nexthdr, headType, hu]
        decide
      exact ⟨_, .of_inr hend, _, rfl, rfl, hpkt.nexthdr⟩
    · refine ha.finds hpkt.chain hne (by omega) (by omega) rfl ?_ ?_
      · simp only [ipv6WalkInit, hpkt.nexthdr]
        exact hpkt.chain.isExt_headType hne
      · simp only [ipv6WalkInit, hpkt.nexthdr]
        intro h44
        cases hs with
        | nil => exact absurd rfl hne
        | cons h hs => exact hpkt.chain.2.2.2.1 h44

/-- A hop-by-hop and a routing header before UDP. -/
theorem ipv6Walk_finds_options :
    (∀ m, IsExtPkt m 0 32 [⟨0, 0⟩, ⟨43, 1⟩] 17 → FindsUpper m 0 [⟨0, 0⟩, ⟨43, 1⟩] 17) ↔
      Aligned 17 [⟨0, 0⟩, ⟨43, 1⟩] :=
  ipv6Walk_finds_iff 0 32 [⟨0, 0⟩, ⟨43, 1⟩] 17 (by decide) (by decide) (by decide) (by decide)

/-- An authentication header of 24 bytes before TCP: next header 51, payload length 44. -/
def ahPkt : Mem := fun i =>
  if i = 5 then 44 else if i = 6 then 51 else if i = 40 then 6 else if i = 41 then 4 else 0

/-- The TCP header at 64 is not found, since the length of the authentication header is counted in
units of 8 bytes. -/
theorem ipv6Walk_misses : IsExtPkt ahPkt 0 44 [⟨51, 4⟩] 6 ∧ ¬FindsUpper ahPkt 0 [⟨51, 4⟩] 6 := by
  constructor
  · exact ⟨by decide, by decide, by decide, by decide, by decide, by decide, rfl⟩
  · rintro ⟨r, ⟨hr, -⟩, hfind⟩
    have hstop : ¬StopsAt ahPkt 0 (ipv6WalkInit ahPkt 0).off (ipv6WalkInit ahPkt 0).nexthdr :=
      fun h => absurd h.1 (by decide)
    obtain ⟨s', hb, hoff, htype⟩ := exists_ipv6WalkBody_inl (by decide)
      (show (ipv6WalkInit ahPkt 0).off + 8 ≤ 84 by decide) hstop (by decide)
    refine misses_of_lt (show 84 ≤ 65535 by norm_num) ?_ r ((returns_inl_iff hb).mp hr) hfind
    rw [hoff]
    decide

end Pptk.Iphdr
