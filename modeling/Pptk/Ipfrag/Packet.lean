import Pptk.Iphdr.Hdr
import Pptk.Lib.Gaps

/-!
# Packets, accepted fragments and what a reassembly has to report

Every engine of `ipfrag/` starts with the same two checks on the packet
(`badLength`, `dataLast > 65535`) and then only looks at the payload range and
the more-fragments bit. `Packet.accept` is the outcome of these checks: the
fragment, which carries its own bounds.

What an engine is for does not depend on its data structure. After a list `fs`
of accepted fragments
* the datagram ends at `mostRestrictingLast fs`, the smallest end of a fragment
  without the more-fragments bit;
* a payload byte is `Covered` when some accepted fragment contains it, and
  `Missing` when it is at most the end and not covered.
-/

namespace Pptk.Ipfrag

open Pptk.Lib Pptk.Iphdr List

/-- `enum packet_direction` (packet.h:9-12). -/
inductive PacketDirection
  | uplink
  | downlink
deriving DecidableEq, Repr

/-- The fields of `struct packet` (packet.h:39-50) that carry a frame. -/
structure Packet where
  direction : PacketDirection
  sz : ℕ
  data : Mem

/-- The index of the IP header of a frame. -/
abbrev ipOff : ℕ := etherPayload 0

/-- A fragment that passed the checks of an engine: payload bytes `first … last` and the
more-fragments bit. -/
structure Frag where
  first : ℕ
  last : ℕ
  more : Bool
  aligned : first % 8 = 0
  le : first ≤ last
  lt : last < 65536
deriving DecidableEq

/-- The fragment contains payload byte `i`. -/
def Frag.Has (f : Frag) (i : ℕ) : Prop := f.first ≤ i ∧ i ≤ f.last

instance (f : Frag) (i : ℕ) : Decidable (f.Has i) := inferInstanceAs (Decidable (_ ∧ _))

namespace Packet

variable (p : Packet)

/--
`pkt->sz < 34 || ip_total_len(ip) <= ip_hdr_len(ip) || (size_t)(ip_total_len(ip) + 14) > pkt->sz`
(ipreass.c:112-114 and the same lines of the other engines). -/
def badLength : Bool :=
  p.sz < 34 || ipTotalLen p.data ipOff ≤ ipHdrLen p.data ipOff ||
    ipTotalLen p.data ipOff + 14 > p.sz

/-- `data_first = ip_frag_off(ip)`. -/
def dataFirst : ℕ := ipFragOff p.data ipOff

/-- `ip_total_len(ip) - (ip_hdr_len(ip) + 1) + ip_frag_off(ip)`, an `int`, which is not negative
once `badLength` is false. -/
def dataLast : ℕ :=
  ipTotalLen p.data ipOff - (ipHdrLen p.data ipOff + 1) + ipFragOff p.data ipOff

/-- `ip_more_frags(ip)`. -/
def moreFrags : Bool := ipMoreFrags p.data ipOff

/-- The fragment of a packet that passes the checks of `reassctx_add` (ipreass.c:112-123). -/
def accept : Option Frag :=
  if h : p.badLength = true ∨ p.dataLast > 65535 then none
  else some
    { first := p.dataFirst
      last := p.dataLast
      more := p.moreFrags
      aligned := ipFragOff_mod p.data ipOff
      le := Nat.le_add_left _ _
      lt := by omega }

/-- What is accepted: a good length, and no byte after `65535`. -/
theorem accept_eq_some_iff {f : Frag} :
    p.accept = some f ↔
      p.badLength = false ∧ p.dataLast ≤ 65535 ∧ f.first = p.dataFirst ∧ f.last = p.dataLast ∧
        f.more = p.moreFrags := by
  unfold accept
  split_ifs with h
  · simp only [false_iff, not_and]
    intro hb hl
    rcases h with h | h
    · simp [h] at hb
    · omega
  · rw [not_or, Bool.not_eq_true] at h
    obtain ⟨hb, hl⟩ := h
    constructor
    · rintro ⟨⟩; exact ⟨hb, by omega, rfl, rfl, rfl⟩
    · rintro ⟨_, _, h1, h2, h3⟩
      cases f
      simp_all

theorem accept_eq_none_iff : p.accept = none ↔ p.badLength = true ∨ p.dataLast > 65535 := by
  unfold accept
  split_ifs with h <;> simp [h]

end Packet

/-! ## The end of the datagram and the missing bytes -/

/-- The smallest end of a fragment without the more-fragments bit, 65535 if none ends earlier. -/
def mostRestrictingLast (fs : List Frag) : ℕ :=
  ((fs.filter fun f => !f.more).map Frag.last).foldr min 65535

/-- Payload byte `i` is in some accepted fragment. -/
def Covered (fs : List Frag) (i : ℕ) : Prop := ∃ f ∈ fs, f.Has i

/-- Payload byte `i` belongs to the datagram and has not arrived. -/
def Missing (fs : List Frag) (i : ℕ) : Prop := i ≤ mostRestrictingLast fs ∧ ¬Covered fs i

instance (fs : List Frag) (i : ℕ) : Decidable (Covered fs i) :=
  inferInstanceAs (Decidable (∃ f ∈ fs, f.Has i))

@[simp] theorem mostRestrictingLast_nil : mostRestrictingLast [] = 65535 := rfl

@[simp] theorem not_covered_nil (i : ℕ) : ¬Covered [] i := by simp [Covered]

@[simp] theorem covered_append (fs gs : List Frag) (i : ℕ) :
    Covered (fs ++ gs) i ↔ Covered fs i ∨ Covered gs i := by
  simp only [Covered, mem_append, or_and_right, exists_or]

@[simp] theorem covered_singleton (f : Frag) (i : ℕ) : Covered [f] i ↔ f.Has i := by
  simp [Covered]

theorem foldr_min_eq (l : List ℕ) (a b : ℕ) : l.foldr min (min a b) = min (l.foldr min a) b := by
  induction l with
  | nil => rfl
  | cons x l ih => simp only [foldr_cons, ih, min_assoc]

/-- One more fragment lowers the last byte only if it is a final one. -/
theorem mostRestrictingLast_append_singleton (fs : List Frag) (f : Frag) :
    mostRestrictingLast (fs ++ [f]) =
      if f.more = false ∧ mostRestrictingLast fs > f.last then f.last
      else mostRestrictingLast fs := by
  unfold mostRestrictingLast
  rw [filter_append, map_append, foldr_append]
  cases hm : f.more with
  | true => simp [hm]
  | false =>
    simp only [hm, Bool.not_false, filter_cons_of_pos, filter_nil, map_cons,
      map_nil, foldr_cons, foldr_nil, true_and]
    rw [min_comm, foldr_min_eq]
    split_ifs <;> omega

theorem mostRestrictingLast_le (fs : List Frag) : mostRestrictingLast fs ≤ 65535 := by
  unfold mostRestrictingLast
  induction (fs.filter fun f => !f.more).map Frag.last with
  | nil => simp
  | cons x l ih => rw [foldr_cons]; omega

/-- The end is that of some last fragment, unless no such fragment ends before byte 65535. -/
theorem exists_last_of_lt {fs : List Frag} (h : mostRestrictingLast fs < 65535) :
    ∃ f ∈ fs, f.more = false ∧ f.last = mostRestrictingLast fs := by
  induction fs using reverseRecOn with
  | nil => simp at h
  | append_singleton fs f ih =>
    rw [mostRestrictingLast_append_singleton] at h ⊢
    split_ifs at h ⊢ with hf
    · exact ⟨f, by simp, hf.1, rfl⟩
    · obtain ⟨g, hg, h1, h2⟩ := ih h
      exact ⟨g, by simp [hg], h1, h2⟩

theorem mostRestrictingLast_le_last {fs : List Frag} {f : Frag} (hf : f ∈ fs)
    (hm : f.more = false) : mostRestrictingLast fs ≤ f.last := by
  induction fs using reverseRecOn with
  | nil => simp at hf
  | append_singleton fs g ih =>
    rw [mostRestrictingLast_append_singleton]
    rcases mem_append.mp hf with hf | hf
    · have := ih hf
      split_ifs <;> omega
    · rw [mem_singleton] at hf
      subst hf
      split_ifs with h
      · exact le_rfl
      · have := mostRestrictingLast_le fs
        have := f.lt
        by_contra hlt
        exact h ⟨hm, by omega⟩

theorem mostRestrictingLast_append_le (fs : List Frag) (f : Frag) :
    mostRestrictingLast (fs ++ [f]) ≤ mostRestrictingLast fs := by
  rw [mostRestrictingLast_append_singleton]
  split_ifs with hf
  · exact hf.2.le
  · exact le_rfl

/-- One more fragment: its bytes, and those after the new last byte, are not missing any more. -/
theorem missing_append_singleton (fs : List Frag) (f : Frag) (i : ℕ) :
    Missing (fs ++ [f]) i ↔ (Missing fs i ∧ i ≤ mostRestrictingLast (fs ++ [f])) ∧ ¬f.Has i := by
  have h := mostRestrictingLast_append_singleton fs f
  simp only [Missing, covered_append, covered_singleton, not_or]
  constructor
  · rintro ⟨h1, h2, h3⟩
    refine ⟨⟨⟨?_, h2⟩, h1⟩, h3⟩
    split_ifs at h <;> omega
  · rintro ⟨⟨⟨_, h2⟩, h1⟩, h3⟩
    exact ⟨h1, h2, h3⟩

theorem covered_of_block_end {fs : List Frag} (h : mostRestrictingLast fs < 65535) {i : ℕ}
    (hi : i ≤ mostRestrictingLast fs) (hb : mostRestrictingLast fs / 8 ≤ i / 8) : Covered fs i := by
  obtain ⟨f, hf, _, hl⟩ := exists_last_of_lt h
  have := f.aligned
  have := f.le
  exact ⟨f, hf, by omega, by omega⟩

end Pptk.Ipfrag
