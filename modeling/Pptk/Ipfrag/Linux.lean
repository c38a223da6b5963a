import Pptk.Ipfrag.RoundTrip

/-!
# The fragment queue taken from Linux

Model of `ipfrag/linux.c`. Unlike the other engines this one keeps the bytes that
have arrived instead of the holes: a chain of packets in ascending order, from
which every overlap is cut away when a packet is queued, and the number `meat` of
bytes in the chain. A packet is cut at its head only, in `positive.offset` and
`positive.pulled`; the new packet gives way to the one in front of it and the
packets behind give way to the new one.

The queue does not look at the total length field. The end of a packet is computed
from its size, and `offset` and `pulled` are 16 bits wide, so the results are about
packets that hold their header and end in 16 bits (`Packet.Fits`).

Main results: `ipFragQueue_run`, `engines_agree` and `ipq_round_trip`.
-/

namespace Pptk.Ipfrag

open Pptk.Lib Pptk.Iphdr List Option

/-! ## The source functions -/

/-- A `size_t` expression converted to `int`. -/
def toInt32 (x : ℤ) : ℤ := x.bmod 4294967296

/-- A value stored in a `uint16_t`. -/
def toUint16 (x : ℤ) : ℕ := (x % 65536).toNat

/-- A packet of the chain with its `struct positive` (packet.h:32-36). -/
structure Piece where
  pkt : Packet
  offset : ℕ
  pulled : ℕ

/-- `struct ipq` (linux.h:51-64), without the maximal sizes, which nothing depends on. `fragments`
is the chain, whose last packet is `fragments_tail`: the tail only leaves the chain when the new
packet becomes the last one. -/
structure Ipq where
  fragments : List Piece
  len : ℤ
  meat : ℤ
  firstIn : Bool
  lastIn : Bool
  complete : Bool

/-- `ipq_init` (linux.c:34-43). -/
def ipqInit : Ipq := ⟨[], 0, 0, false, false, false⟩

/-- What `ip_frag_queue` returns. -/
inductive FragRet
  | ok
  | einprogress
  | einval
  | enoent
deriving DecidableEq, Repr

/-- The end of the datagram (linux.c:144-170); `none` is `goto err`. -/
def ipqEnd (q : Ipq) (more : Bool) (fin : ℤ) : Option Ipq :=
  if more = false then
    if fin < q.len ∨ q.lastIn = true ∧ fin ≠ q.len then none
    else some { q with lastIn := true, len := fin }
  else if fin > q.len then
    if q.lastIn then none else some { q with len := fin }
  else some q

/-- The packets in front of the new one and those behind it (linux.c:187-198). -/
def ipqSplit (l : List Piece) (offset : ℕ) : List Piece × List Piece :=
  if l.getLast?.all fun tail => tail.offset < offset then (l, [])
  else (l.takeWhile fun x => x.offset < offset, l.dropWhile fun x => x.offset < offset)

/-- By how much `prev` reaches into the new packet (linux.c:205-208). -/
def ipqOverlap (front : List Piece) (offset : ℕ) : ℤ :=
  match front.getLast? with
  | none => 0
  | some prev => max 0 (toInt32 (prev.offset + prev.pkt.sz - prev.pulled) - offset)

/-- The loop that cuts or frees the packets behind (linux.c:225-252), with the new `meat`. -/
def eatNext (fin : ℤ) : List Piece → ℤ → List Piece × ℤ
  | [], meat => ([], meat)
  | next :: rest, meat =>
    if next.offset < fin then
      let i := fin - next.offset
      if i < toInt32 (next.pkt.sz - next.pulled) then
        ({ next with
            pulled := toUint16 (next.pulled + i)
            offset := toUint16 (next.offset + i) } :: rest, meat - i)
      else eatNext fin rest (meat - toInt32 (next.pkt.sz - next.pulled))
    else (next :: rest, meat)

/-- The packet, cut by `i` bytes, goes between `front` and what the loop leaves of `back`
(linux.c:223-267). -/
def ipqPlace (q : Ipq) (pkt : Packet) (fin i : ℤ) (front back : List Piece) : Ipq :=
  let ihl := ipHdrLen pkt.data ipOff
  let pulled := toUint16 (toUint16 (14 + ihl) + i)
  let offset := pkt.dataFirst + i
  let (back, meat) := eatNext fin back q.meat
  { q with
    fragments := front ++ ⟨pkt, toUint16 offset, pulled⟩ :: back
    meat := meat + (toInt32 pkt.sz - pulled)
    firstIn := q.firstIn || offset = 0 }

/-- The answer when the packet is in the chain (linux.c:278-283). -/
def ipqAnswer (q : Ipq) : FragRet :=
  if q.firstIn ∧ q.lastIn ∧ q.complete = false ∧ q.meat = q.len then .ok else .einprogress

/-- Putting the packet into the chain (linux.c:180-283). -/
def ipFragInsert (q : Ipq) (pkt : Packet) (fin : ℤ) : Ipq × FragRet :=
  let (front, back) := ipqSplit q.fragments pkt.dataFirst
  let i := ipqOverlap front pkt.dataFirst
  if 0 < i ∧ fin ≤ pkt.dataFirst + i then (q, .einprogress)
  else (ipqPlace q pkt fin i front back, ipqAnswer (ipqPlace q pkt fin i front back))

/-- `ip_frag_queue` (linux.c:100-289). -/
def ipFragQueue (q : Ipq) (pkt : Packet) : Ipq × FragRet :=
  if q.complete then (q, .enoent)
  else
    let fin := toInt32 (pkt.dataFirst + pkt.sz - 14 - ipHdrLen pkt.data ipOff)
    match ipqEnd q pkt.moreFrags fin with
    | none => (q, .einval)
    | some q => if fin = pkt.dataFirst then (q, .einprogress) else ipFragInsert q pkt fin

/-- The body of the copy loop (linux.c:87-96). -/
def copyPiece (pay2 : ℕ) (m : Mem) (x : Piece) : Mem :=
  memcpy m (pay2 + x.offset) x.pkt.data
    (ipPayload x.pkt.data ipOff + toUint16 (x.offset - x.pkt.dataFirst))
    ((x.pkt.sz - x.pulled : ℤ) % 18446744073709551616).toNat

/-- `ip_frag_reassemble` (linux.c:59-98). The result is `none` if a null pointer is dereferenced or
a header setter aborts. The direction of the new packet is not set. -/
def ipFragReassemble (e : Endian) (alloc : Option Packet) (q : Ipq) : Option Packet := do
  let first ← q.fragments.head?
  let pkt2 ← alloc
  let hdrLen := ipHdrLen first.pkt.data ipOff
  let data := memcpy pkt2.data 0 first.pkt.data 0 (etherHdrLen + hdrLen)
  let hdrLen2 := ipHdrLen data ipOff
  let data ← rewriteHeader e data ipOff 0 false (hdrLen2 + q.len).toNat hdrLen2
  some { pkt2 with
    sz := (q.len + 14 + hdrLen).toNat
    data := q.fragments.foldl (copyPiece (ipPayload data ipOff)) data }

/-- The queue after calls of `ip_frag_queue`, and the packets that were not answered by `-EINVAL`.
-/
def ipqRun (pkts : List Packet) : Ipq × List Packet :=
  pkts.foldl (fun (q, kept) p =>
    ((ipFragQueue q p).1, if (ipFragQueue q p).2 = .einval then kept else kept ++ [p]))
      (ipqInit, [])

/-! ## Packets and pieces -/

namespace Packet

/-- The index behind the last payload byte, by the size of the packet. -/
def fragEnd (p : Packet) : ℕ := p.dataFirst + (p.sz - 14 - ipHdrLen p.data ipOff)

/-- The packet holds its IP header, has at most 65536 bytes, and payload byte 65534 is the last that
it may have. -/
structure Fits (p : Packet) : Prop where
  hdr : 14 + ipHdrLen p.data ipOff ≤ p.sz
  sz : p.sz ≤ 65536
  fin : p.fragEnd ≤ 65535

/-- The packet has payload byte `i`. -/
def Holds (p : Packet) (i : ℕ) : Prop := p.dataFirst ≤ i ∧ i < p.fragEnd

/-- `p` is a last fragment and ends before `r` does. -/
def Contradicts (p r : Packet) : Prop := p.moreFrags = false ∧ p.fragEnd < r.fragEnd

end Packet

/-- Payload byte `i` of the packet is in the chain. -/
def Piece.Holds (x : Piece) (i : ℕ) : Prop := x.offset ≤ i ∧ i < x.pkt.fragEnd

/-- The piece is what is left of the packet after cutting its head. -/
structure Piece.Ok (x : Piece) : Prop where
  fits : x.pkt.Fits
  ge : x.pkt.dataFirst ≤ x.offset
  lt : x.offset < x.pkt.fragEnd
  pulled : x.pulled + x.pkt.dataFirst = x.offset + 14 + ipHdrLen x.pkt.data ipOff

theorem toInt32_of_lt {x : ℤ} (h0 : 0 ≤ x) (h : x < 2147483648) : toInt32 x = x := by
  rw [toInt32, Int.bmod_def]
  split_ifs <;> omega

theorem toUint16_of_lt {x : ℤ} (h0 : 0 ≤ x) (h : x < 65536) : (toUint16 x : ℤ) = x := by
  rw [toUint16]
  omega

theorem Packet.Fits.end_eq {p : Packet} (h : p.Fits) :
    toInt32 (p.dataFirst + p.sz - 14 - ipHdrLen p.data ipOff) = p.fragEnd := by
  have h1 := h.hdr
  have h2 := h.fin
  rw [Packet.fragEnd] at h2 ⊢
  rw [toInt32_of_lt] <;> omega

namespace Piece.Ok

variable {x : Piece}

theorem end_eq (h : x.Ok) : x.offset + x.pkt.sz = x.pulled + x.pkt.fragEnd := by
  have h1 := h.pulled
  have h2 := h.fits.hdr
  rw [Packet.fragEnd]
  omega

theorem size_eq (h : x.Ok) : toInt32 (x.pkt.sz - x.pulled) = x.pkt.fragEnd - x.offset := by
  have h1 := h.end_eq
  have h2 := h.fits.fin
  have h3 := h.lt
  rw [toInt32_of_lt] <;> omega

theorem cut (h : x.Ok) (fin : ℕ) (h1 : x.offset < fin) (h2 : fin < x.pkt.fragEnd) :
    Piece.Ok { x with
      pulled := toUint16 (x.pulled + (fin - x.offset))
      offset := toUint16 (x.offset + (fin - x.offset)) } ∧
    toUint16 (x.offset + (fin - x.offset : ℤ)) = fin := by
  have hend := h.end_eq
  have hge := h.ge
  have hpulled := h.pulled
  have hsz := h.fits.sz
  have hfin := h.fits.fin
  have e1 : toUint16 (x.pulled + (fin - x.offset : ℤ)) = x.pulled + (fin - x.offset) := by
    rw [toUint16]; omega
  have e2 : toUint16 (x.offset + (fin - x.offset : ℤ)) = fin := by
    rw [toUint16]; omega
  refine ⟨⟨h.fits, ?_, ?_, ?_⟩, e2⟩ <;> simp only [e1, e2] <;> omega

end Piece.Ok

/-! ## The chain -/

/-- The pieces are whole, disjoint and in ascending order. -/
def Chain (l : List Piece) : Prop :=
  (∀ x ∈ l, x.Ok) ∧ l.Pairwise fun x y => x.pkt.fragEnd ≤ y.offset

/-- The number of bytes in the chain. -/
def chainBytes (l : List Piece) : ℕ := (l.map fun x => x.pkt.fragEnd - x.offset).sum

/-- Payload byte `i` is in the chain. -/
def InChain (l : List Piece) (i : ℕ) : Prop := ∃ x ∈ l, x.Holds i

theorem chainBytes_cons (x : Piece) (l : List Piece) :
    chainBytes (x :: l) = x.pkt.fragEnd - x.offset + chainBytes l := rfl

@[simp] theorem inChain_cons (x : Piece) (l : List Piece) (i : ℕ) :
    InChain (x :: l) i ↔ x.Holds i ∨ InChain l i := by
  simp [InChain]

@[simp] theorem inChain_append (l r : List Piece) (i : ℕ) :
    InChain (l ++ r) i ↔ InChain l i ∨ InChain r i := by
  simp only [InChain, mem_append, or_and_right, exists_or]

namespace Chain

variable {l r : List Piece} {x : Piece}

theorem cons_iff : Chain (x :: l) ↔ x.Ok ∧ (∀ y ∈ l, x.pkt.fragEnd ≤ y.offset) ∧ Chain l := by
  simp only [Chain, forall_mem_cons, pairwise_cons]
  tauto

theorem append_iff : Chain (l ++ r) ↔
    Chain l ∧ Chain r ∧ ∀ x ∈ l, ∀ y ∈ r, x.pkt.fragEnd ≤ y.offset := by
  simp only [Chain, forall_mem_append, pairwise_append]
  tauto

/-- The bytes of a chain inside `lo … hi - 1` are all of these exactly when there are that many. -/
theorem bytes_eq_iff (lo : ℕ) {hi : ℕ} (h : Chain l) (hlo : ∀ x ∈ l, lo ≤ x.offset)
    (hhi : ∀ x ∈ l, x.pkt.fragEnd ≤ hi) (hle : lo ≤ hi) :
    lo + chainBytes l ≤ hi ∧ (lo + chainBytes l = hi ↔ ∀ i, lo ≤ i → i < hi → InChain l i) := by
  induction l generalizing lo with
  | nil =>
    refine ⟨hle, fun heq i h1 h2 => ?_, fun hall => ?_⟩
    · simp only [chainBytes, map_nil, sum_nil] at heq
      omega
    · by_contra hne
      simp only [chainBytes, map_nil, sum_nil] at hne
      obtain ⟨x, hx, -⟩ := hall lo le_rfl (by omega)
      simp at hx
  | cons x l ih =>
    obtain ⟨hx, hxl, hl⟩ := cons_iff.mp h
    have hlt := hx.lt
    have hlox := hlo x (by simp)
    have hhix := hhi x (by simp)
    obtain ⟨hsum, hiff⟩ := ih _ hl hxl (fun y hy => hhi y (by simp [hy])) hhix
    have hbytes := chainBytes_cons x l
    refine ⟨by omega, fun heq i h1 h2 => ?_, fun hall => ?_⟩
    · rw [inChain_cons]
      by_cases hi : i < x.pkt.fragEnd
      · exact .inl ⟨by omega, hi⟩
      · exact .inr (hiff.mp (by omega) i (by omega) h2)
    · -- byte `lo` is in the first piece, since the others start behind it
      have hfirst : x.offset = lo := by
        rcases (inChain_cons ..).mp (hall lo le_rfl (by omega)) with hlo' | ⟨y, hy, hlo'⟩
        · exact le_antisymm hlo'.1 hlox
        · have := hxl y hy
          have := hlo'.1
          omega
      have := hiff.mpr fun i h1 h2 => by
        rcases (inChain_cons ..).mp (hall i (by omega) h2) with hi | hi
        · exact absurd hi.2 (by omega)
        · exact hi
      omega

end Chain

/-! ## Queueing one packet -/

variable {l : List Piece} {pay2 : ℕ}

theorem ipqSplit_spec (h : Chain l) (offset : ℕ) :
    (ipqSplit l offset).1 ++ (ipqSplit l offset).2 = l ∧
      (∀ x ∈ (ipqSplit l offset).1, x.offset < offset) ∧
      ∀ x ∈ (ipqSplit l offset).2, offset ≤ x.offset := by
  unfold ipqSplit
  split_ifs with hlast
  · refine ⟨append_nil l, fun x hx => ?_, by simp⟩
    rcases eq_nil_or_concat l with rfl | ⟨init, tail, rfl⟩
    · simp at hx
    rw [concat_eq_append] at h hx hlast
    simp only [getLast?_append, getLast?_singleton, some_or, all_some, decide_eq_true_eq] at hlast
    rcases mem_append.mp hx with hx | hx
    · have := (Chain.append_iff.mp h).2.2 x hx tail (by simp)
      have := (h.1 x (by simp [hx])).lt
      omega
    · rw [mem_singleton.mp hx]
      exact hlast
  · refine ⟨takeWhile_append_dropWhile, fun x hx => by
      simpa using all_eq_true.mp all_takeWhile x hx, ?_⟩
    clear hlast
    induction l with
    | nil => simp
    | cons y l ih =>
      obtain ⟨hy, hyl, hl⟩ := Chain.cons_iff.mp h
      by_cases hlt : y.offset < offset
      · simpa [hlt] using ih hl
      · rw [dropWhile_cons_of_neg (by simpa using hlt)]
        refine forall_mem_cons.mpr ⟨not_lt.mp hlt, fun x hx => ?_⟩
        have := hyl x hx
        have := hy.lt
        omega

/-- Where the new packet starts after it has given way. -/
theorem ipqOverlap_spec {front : List Piece} {offset : ℕ} (h : Chain front)
    (hlt : ∀ x ∈ front, x.offset < offset) :
    ∃ s : ℕ, offset + ipqOverlap front offset = s ∧ offset ≤ s ∧
      (∀ x ∈ front, x.pkt.fragEnd ≤ s) ∧ (offset < s → ∃ x ∈ front, x.pkt.fragEnd = s) := by
  rcases eq_nil_or_concat front with rfl | ⟨init, prev, rfl⟩
  · exact ⟨offset, by simp [ipqOverlap], le_rfl, by simp, fun h => absurd h (by omega)⟩
  rw [concat_eq_append] at h hlt ⊢
  have hprev := h.1 prev (by simp)
  have hend : toInt32 (prev.offset + prev.pkt.sz - prev.pulled) = prev.pkt.fragEnd := by
    have h1 := hprev.end_eq
    have h2 := hprev.fits.fin
    rw [toInt32_of_lt] <;> omega
  have hover : ipqOverlap (init ++ [prev]) offset = max 0 ((prev.pkt.fragEnd : ℤ) - offset) := by
    simp [ipqOverlap, hend]
  have hprevlt := hlt prev (by simp)
  refine ⟨max offset prev.pkt.fragEnd, ?_, le_max_left .., fun x hx => ?_, fun hs => ?_⟩
  · rw [hover]
    omega
  · rcases mem_append.mp hx with hx | hx
    · have := (Chain.append_iff.mp h).2.2 x hx prev (by simp)
      omega
    · rw [mem_singleton.mp hx]
      exact le_max_right ..
  · exact ⟨prev, by simp, by omega⟩

/-- The eating loop leaves the bytes from `fin` on. -/
theorem eatNext_spec (fin : ℕ) (h : Chain l) (meat : ℤ) :
    Chain (eatNext fin l meat).1 ∧
      (∀ x ∈ (eatNext fin l meat).1, fin ≤ x.offset ∧ ∃ y ∈ l, x.pkt = y.pkt) ∧
      (∀ i, InChain (eatNext fin l meat).1 i ↔ InChain l i ∧ fin ≤ i) ∧
      (eatNext fin l meat).2 + chainBytes l = meat + chainBytes (eatNext fin l meat).1 := by
  induction l generalizing meat with
  | nil => exact ⟨h, by simp [eatNext], by simp [eatNext, InChain], rfl⟩
  | cons next rest ih =>
    obtain ⟨hok, hle, hrest⟩ := Chain.cons_iff.mp h
    have hlt := hok.lt
    simp only [eatNext, hok.size_eq]
    split_ifs with h1 h2
    · obtain ⟨hcut, hoff⟩ := hok.cut fin (by omega) (by omega)
      refine ⟨Chain.cons_iff.mpr ⟨hcut, hle, hrest⟩, forall_mem_cons.mpr
        ⟨⟨hoff.ge, next, by simp, rfl⟩, fun x hx => ?_⟩, fun i => ?_, ?_⟩
      · have := hle x hx
        exact ⟨by omega, x, by simp [hx], rfl⟩
      · have hi : InChain rest i → fin ≤ i := by
          rintro ⟨y, hy, hyi⟩
          have := hle y hy
          have := hyi.1
          omega
        simp only [inChain_cons, Piece.Holds, hoff]
        constructor
        · rintro (⟨h3, h4⟩ | h3)
          · exact ⟨.inl ⟨by omega, h4⟩, h3⟩
          · exact ⟨.inr h3, hi h3⟩
        · rintro ⟨⟨h3, h4⟩ | h3, h5⟩
          · exact .inl ⟨h5, h4⟩
          · exact .inr h3
      · simp only [chainBytes_cons, hoff]
        omega
    · obtain ⟨hc, hmem, hin, hmeat⟩ := ih hrest (meat - (next.pkt.fragEnd - next.offset))
      refine ⟨hc, fun x hx => ?_, fun i => ?_, ?_⟩
      · obtain ⟨h3, y, hy, h4⟩ := hmem x hx
        exact ⟨h3, y, by simp [hy], h4⟩
      · rw [hin, inChain_cons]
        constructor
        · exact fun h3 => ⟨.inr h3.1, h3.2⟩
        · rintro ⟨h3 | h3, h4⟩
          · exact absurd h3.2 (by omega)
          · exact ⟨h3, h4⟩
      · rw [chainBytes_cons]
        omega
    · refine ⟨h, forall_mem_cons.mpr ⟨⟨by omega, next, by simp, rfl⟩, fun x hx => ?_⟩,
        fun i => ⟨fun hi => ⟨hi, ?_⟩, And.left⟩, rfl⟩
      · have := hle x hx
        exact ⟨by omega, x, by simp [hx], rfl⟩
      · rcases (inChain_cons ..).mp hi with h3 | ⟨y, hy, h3⟩
        · have := h3.1
          omega
        · have := hle y hy
          have := h3.1
          omega

/-- The packet has no bytes, or they all lie in one piece that starts before it. -/
def Swallowed (l : List Piece) (p : Packet) : Prop :=
  p.fragEnd = p.dataFirst ∨ ∃ x ∈ l, x.offset < p.dataFirst ∧ p.fragEnd ≤ x.pkt.fragEnd

/-- The condition for the return value 0 (linux.c:278-279). -/
def Ipq.Full (q : Ipq) : Prop :=
  q.firstIn = true ∧ q.lastIn = true ∧ q.meat = q.len

/-- `q'` is `q` with the bytes of the packet. -/
structure Queued (q : Ipq) (p : Packet) (q' : Ipq) : Prop where
  chain : Chain q'.fragments
  pkts : ∀ x ∈ q'.fragments, x.pkt = p ∨ ∃ y ∈ q.fragments, x.pkt = y.pkt
  bytes : ∀ i, InChain q'.fragments i ↔ InChain q.fragments i ∨ p.Holds i
  meat : q'.meat = chainBytes q'.fragments
  firstIn : q'.firstIn = true ↔ q.firstIn = true ∨ p.Holds 0
  len : q'.len = q.len
  lastIn : q'.lastIn = q.lastIn
  complete : q'.complete = q.complete

/-- A packet whose bytes are in the chain already is dropped. -/
theorem queued_of_swallowed {q : Ipq} {p : Packet} (h : Chain q.fragments)
    (hmeat : q.meat = chainBytes q.fragments) (hs : Swallowed q.fragments p) : Queued q p q := by
  refine ⟨h, fun x hx => .inr ⟨x, hx, rfl⟩, fun i => ⟨.inl, ?_⟩, hmeat, ⟨.inl, ?_⟩, rfl, rfl, rfl⟩
  · rintro (hi | ⟨h1, h2⟩)
    · exact hi
    · rcases hs with hs | ⟨x, hx, h3, h4⟩
      · omega
      · exact ⟨x, hx, by omega, by omega⟩
  · rintro (hi | ⟨h1, h2⟩)
    · exact hi
    · rcases hs with hs | ⟨x, hx, h3, h4⟩ <;> omega

/-- Placing a packet that is not swallowed, with `s` its new start. -/
theorem ipqPlace_spec {q : Ipq} {p : Packet} {front back : List Piece} {i : ℤ} {s : ℕ}
    (happ : front ++ back = q.fragments) (h : Chain (front ++ back))
    (hmeat : q.meat = chainBytes q.fragments) (hp : p.Fits)
    (hback : ∀ x ∈ back, p.dataFirst ≤ x.offset) (hs : p.dataFirst + i = s) (hle : p.dataFirst ≤ s)
    (hlt : s < p.fragEnd) (hends : ∀ x ∈ front, x.pkt.fragEnd ≤ s)
    (hprev : p.dataFirst < s → ∃ x ∈ front, x.offset < p.dataFirst ∧ x.pkt.fragEnd = s) :
    Queued q p (ipqPlace q p p.fragEnd i front back) := by
  obtain ⟨hcf, hcb, -⟩ := Chain.append_iff.mp h
  obtain ⟨hce, hge, hin, hm⟩ := eatNext_spec p.fragEnd hcb q.meat
  have h14 := hp.hdr
  have hsz := hp.sz
  have hfin := hp.fin
  have hend : p.fragEnd = p.dataFirst + (p.sz - 14 - ipHdrLen p.data ipOff) := rfl
  have hoff : toUint16 (p.dataFirst + i) = s := by
    rw [toUint16]; omega
  have hpulled : toUint16 (toUint16 (14 + ipHdrLen p.data ipOff) + i) =
      14 + ipHdrLen p.data ipOff + (s - p.dataFirst) := by
    have := toUint16_of_lt (x := 14 + ipHdrLen p.data ipOff) (by omega) (by omega)
    rw [toUint16]; omega
  -- byte 0 is new only if nothing lies in front
  have hzero : p.dataFirst + i = 0 ↔ p.Holds 0 := by
    constructor
    · exact fun h0 => ⟨by omega, by omega⟩
    · rintro ⟨h0, -⟩
      by_contra hne
      obtain ⟨x, -, h1, -⟩ := hprev (by omega)
      omega
  refine ⟨?_, fun x hx => ?_, fun j => ?_, ?_, ?_, rfl, rfl, rfl⟩
  · simp only [ipqPlace, hoff, hpulled]
    refine Chain.append_iff.mpr ⟨hcf, Chain.cons_iff.mpr ⟨⟨hp, hle, hlt, by simp only; omega⟩,
      fun y hy => (hge y hy).1, hce⟩, fun x hx => forall_mem_cons.mpr ⟨hends x hx,
      fun y hy => ?_⟩⟩
    have := hends x hx
    have := (hge y hy).1
    omega
  · rcases mem_append.mp hx with hx | hx
    · exact .inr ⟨x, happ ▸ mem_append_left _ hx, rfl⟩
    rcases mem_cons.mp hx with rfl | hx
    · exact .inl rfl
    · obtain ⟨-, y, hy, hxy⟩ := hge x hx
      exact .inr ⟨y, happ ▸ mem_append_right _ hy, hxy⟩
  · simp only [ipqPlace, ← happ, inChain_append, inChain_cons, hin, Piece.Holds, hoff]
    constructor
    · rintro (hj | ⟨h1, h2⟩ | ⟨hj, -⟩)
      · exact .inl (.inl hj)
      · exact .inr ⟨by omega, h2⟩
      · exact .inl (.inr hj)
    · have hown : p.dataFirst ≤ j → j < p.fragEnd →
          InChain front j ∨ s ≤ j ∧ j < p.fragEnd := by
        intro h1 h2
        by_cases hj : s ≤ j
        · exact .inr ⟨hj, h2⟩
        · obtain ⟨x, hx, h3, h4⟩ := hprev (by omega)
          exact .inl ⟨x, hx, by omega, by omega⟩
      rintro ((hj | hj) | ⟨h1, h2⟩)
      · exact .inl hj
      · -- a byte behind stays there or is one of the packet's own
        by_cases hj' : p.fragEnd ≤ j
        · exact .inr (.inr ⟨hj, hj'⟩)
        · obtain ⟨x, hx, h1, -⟩ := hj
          exact (hown ((hback x hx).trans h1) (not_le.mp hj')).imp_right .inl
      · exact (hown h1 h2).imp_right .inl
  · simp only [ipqPlace, chainBytes, hoff, hpulled, map_append, map_cons, sum_append,
      sum_cons]
    rw [toInt32_of_lt (by omega) (by omega)]
    have hsum : chainBytes q.fragments = chainBytes front + chainBytes back := by
      simp [← happ, chainBytes]
    simp only [chainBytes] at *
    omega
  · simp only [ipqPlace, Bool.or_eq_true, decide_eq_true_eq, hzero]

theorem ipFragInsert_spec {q : Ipq} {p : Packet} (h : Chain q.fragments)
    (hmeat : q.meat = chainBytes q.fragments) (hcomplete : q.complete = false) (hp : p.Fits)
    (hlt : p.dataFirst < p.fragEnd) :
    Queued q p (ipFragInsert q p p.fragEnd).1 ∧ (ipFragInsert q p p.fragEnd).2 ≠ .einval ∧
      ((ipFragInsert q p p.fragEnd).2 = .ok ↔
        ¬Swallowed q.fragments p ∧ (ipFragInsert q p p.fragEnd).1.Full) := by
  obtain ⟨happ, hfront, hback⟩ := ipqSplit_spec h p.dataFirst
  unfold ipFragInsert
  generalize ipqSplit q.fragments p.dataFirst = split at happ hfront hback ⊢
  obtain ⟨front, back⟩ := split
  simp only at happ hfront hback ⊢
  rw [← happ] at h
  obtain ⟨s, hs, hle, hends, hprev⟩ := ipqOverlap_spec (Chain.append_iff.mp h).1 hfront
  -- the pieces behind start too late to swallow the packet
  have hswallowed : Swallowed q.fragments p ↔ p.fragEnd ≤ s := by
    constructor
    · rintro (h1 | ⟨x, hx, h1, h2⟩)
      · omega
      · rw [← happ] at hx
        rcases mem_append.mp hx with hx | hx
        · exact h2.trans (hends x hx)
        · have := hback x hx
          omega
    · intro h1
      obtain ⟨x, hx, h2⟩ := hprev (by omega)
      exact .inr ⟨x, happ ▸ mem_append_left _ hx, hfront x hx, by omega⟩
  split_ifs with hdrop
  · have hsw := hswallowed.mpr (by omega)
    exact ⟨queued_of_swallowed (happ ▸ h) hmeat hsw, by simp, by simp [hsw]⟩
  · have hns : ¬p.fragEnd ≤ s := by omega
    have hq := ipqPlace_spec happ h hmeat hp hback hs hle (not_le.mp hns) hends fun h1 => by
      obtain ⟨x, hx, h2⟩ := hprev h1
      exact ⟨x, hx, hfront x hx, h2⟩
    have hans : ∀ q' : Ipq, q'.complete = false → ipqAnswer q' ≠ .einval ∧
        (ipqAnswer q' = .ok ↔ q'.Full) := by
      intro q' hq'
      unfold ipqAnswer Ipq.Full
      split_ifs <;> simp_all
    obtain ⟨h1, h2⟩ := hans _ (hq.complete.trans hcomplete)
    exact ⟨hq, h1, h2.trans ⟨fun hf => ⟨hswallowed.not.mpr hns, hf⟩, And.right⟩⟩

/-! ## Any calls -/

/-- The packets have the whole datagram: a last fragment, and every byte up to its end, of which
there is at least one. -/
def Received (pkts : List Packet) : Prop :=
  ∃ l ∈ pkts, l.moreFrags = false ∧ 0 < l.fragEnd ∧ ∀ i < l.fragEnd, ∃ p ∈ pkts, p.Holds i

/-- The queue after the packets `kept`. -/
structure IpqInv (kept : List Packet) (q : Ipq) : Prop where
  chain : Chain q.fragments
  pkts : ∀ x ∈ q.fragments, x.pkt ∈ kept
  bytes : ∀ i, InChain q.fragments i ↔ ∃ p ∈ kept, p.Holds i
  meat : q.meat = chainBytes q.fragments
  le_len : ∀ p ∈ kept, (p.fragEnd : ℤ) ≤ q.len
  len_mem : q.len = 0 ∨ ∃ p ∈ kept, q.len = p.fragEnd
  len_last : ∀ p ∈ kept, p.moreFrags = false → q.len = p.fragEnd
  lastIn : q.lastIn = true ↔ ∃ p ∈ kept, p.moreFrags = false
  firstIn : q.firstIn = true ↔ ∃ p ∈ kept, p.Holds 0
  complete : q.complete = false

/-- The packet and an earlier one disagree about the end of the datagram. -/
def Refused (kept : List Packet) (p : Packet) : Prop :=
  ∃ r ∈ kept, p.Contradicts r ∨ r.Contradicts p

theorem ipqInv_init : IpqInv [] ipqInit :=
  ⟨⟨by simp [ipqInit], .nil⟩, by simp [ipqInit], by simp [ipqInit, InChain], rfl, by simp, .inl rfl,
    by simp, by simp [ipqInit], by simp [ipqInit], rfl⟩

namespace IpqInv

variable {kept : List Packet} {q : Ipq} {p : Packet}

theorem full_iff (h : IpqInv kept q) : q.Full ↔ Received kept := by
  have hnonneg : 0 ≤ q.len := by
    rcases h.len_mem with h0 | ⟨r, -, hr⟩ <;> omega
  have hends : ∀ x ∈ q.fragments, x.pkt.fragEnd ≤ q.len.toNat := fun x hx => by
    have := h.le_len x.pkt (h.pkts x hx)
    omega
  have hfull := (h.chain.bytes_eq_iff 0 (fun _ _ => Nat.zero_le _) hends
    (Nat.zero_le _)).2
  simp only [h.bytes, Nat.zero_le, true_imp_iff, Nat.zero_add] at hfull
  have hmeat := h.meat
  constructor
  · rintro ⟨h1, h2, h3⟩
    obtain ⟨l, hl, hlast⟩ := h.lastIn.mp h2
    obtain ⟨r, hr, hr0⟩ := h.firstIn.mp h1
    have hlen := h.len_last l hl hlast
    have := h.le_len r hr
    have := hr0.2
    exact ⟨l, hl, hlast, by omega, fun i hi => hfull.mp (by omega) i (by omega)⟩
  · rintro ⟨l, hl, hlast, hpos, hall⟩
    have hlen := h.len_last l hl hlast
    have := hfull.mpr fun i hi => hall i (by omega)
    exact ⟨h.firstIn.mpr (hall 0 hpos), h.lastIn.mpr ⟨l, hl, hlast⟩, by omega⟩

/-- What a contradiction means for `len` and the flag. -/
theorem refused_iff (h : IpqInv kept q) (p : Packet) :
    Refused kept p ↔ p.moreFrags = false ∧ (p.fragEnd : ℤ) < q.len ∨
      q.lastIn = true ∧ q.len < p.fragEnd := by
  constructor
  · rintro ⟨r, hr, ⟨hm, hlt⟩ | ⟨hm, hlt⟩⟩
    · have := h.le_len r hr
      exact .inl ⟨hm, by omega⟩
    · have := h.len_last r hr hm
      exact .inr ⟨h.lastIn.mpr ⟨r, hr, hm⟩, by omega⟩
  · rintro (⟨hm, hlt⟩ | ⟨hin, hlt⟩)
    · rcases h.len_mem with h0 | ⟨r, hr, hlen⟩
      · omega
      · exact ⟨r, hr, .inl ⟨hm, by omega⟩⟩
    · obtain ⟨l, hl, hm⟩ := h.lastIn.mp hin
      have := h.len_last l hl hm
      exact ⟨l, hl, .inr ⟨hm, by omega⟩⟩

/-- The end of the datagram is raised, unless the packet is refused. -/
theorem ipqEnd_cases (h : IpqInv kept q) (p : Packet) :
    Refused kept p ∧ ipqEnd q p.moreFrags p.fragEnd = none ∨
      ¬Refused kept p ∧ ipqEnd q p.moreFrags p.fragEnd =
        some { q with lastIn := q.lastIn || !p.moreFrags, len := max q.len p.fragEnd } := by
  rw [h.refused_iff, ipqEnd]
  obtain ⟨fragments, len, meat, firstIn, lastIn, complete⟩ := q
  -- the two flags, and whether the packet ends before `len`, at it or behind it
  cases lastIn <;> cases p.moreFrags <;>
    rcases lt_trichotomy (p.fragEnd : ℤ) len with hlt | heq | hlt <;>
    simp [*, le_of_lt, not_lt_of_gt, ne_of_gt, ne_of_lt]

/-- A packet that is not refused joins the others. -/
theorem queued {q' : Ipq} (h : IpqInv kept q) (hr : ¬Refused kept p)
    (hq : Queued { q with lastIn := q.lastIn || !p.moreFrags, len := max q.len p.fragEnd } p q') :
    IpqInv (kept ++ [p]) q' := by
  have hnot : ∀ r ∈ kept, ¬p.Contradicts r ∧ ¬r.Contradicts p := fun r hr' =>
    ⟨fun hc => hr ⟨r, hr', .inl hc⟩, fun hc => hr ⟨r, hr', .inr hc⟩⟩
  have hlen : q'.len = max q.len p.fragEnd := hq.len
  refine ⟨hq.chain, fun x hx => ?_, fun i => ?_, hq.meat, fun r hr' => ?_, ?_, fun r hr' hm => ?_,
    ?_, ?_, hq.complete.trans h.complete⟩
  · rcases hq.pkts x hx with hxp | ⟨y, hy, hxy⟩
    · simp [hxp]
    · simp [hxy, h.pkts y hy]
  · rw [hq.bytes, h.bytes]
    simp [or_and_right, exists_or]
  · rcases mem_append.mp hr' with hr' | hr'
    · exact hlen ▸ (h.le_len r hr').trans (le_max_left ..)
    · rw [hlen, mem_singleton.mp hr']
      exact le_max_right ..
  · rcases le_total q.len p.fragEnd with hle | hle
    · exact .inr ⟨p, by simp, hlen.trans (max_eq_right hle)⟩
    · rw [hlen, max_eq_left hle]
      exact h.len_mem.imp_right fun ⟨r, hr', hlr⟩ => ⟨r, by simp [hr'], hlr⟩
  · rcases mem_append.mp hr' with hr' | hr'
    · have := h.len_last r hr' hm
      have := (hnot r hr').2
      rw [Packet.Contradicts, not_and] at this
      have := this hm
      omega
    · rw [mem_singleton.mp hr'] at hm ⊢
      have hle : q.len ≤ p.fragEnd := by
        by_contra hlt
        rcases h.len_mem with h0 | ⟨l, hl, hll⟩
        · omega
        · exact (hnot l hl).1 ⟨hm, by omega⟩
      rw [hlen, max_eq_right hle]
  · simp [hq.lastIn, h.lastIn, or_and_right, exists_or]
  · rw [hq.firstIn]
    simp [h.firstIn, or_and_right, exists_or]

theorem step (h : IpqInv kept q) (hp : p.Fits) :
    ((ipFragQueue q p).2 = .einval ↔ Refused kept p) ∧
      (Refused kept p → (ipFragQueue q p).1 = q) ∧
      (¬Refused kept p → IpqInv (kept ++ [p]) (ipFragQueue q p).1) ∧
      ((ipFragQueue q p).2 = .ok ↔
        ¬Refused kept p ∧ ¬Swallowed q.fragments p ∧ Received (kept ++ [p])) := by
  unfold ipFragQueue
  simp only [h.complete, hp.end_eq, Bool.false_eq_true, if_false]
  rcases h.ipqEnd_cases p with ⟨hr, hend⟩ | ⟨hr, hend⟩
  · simp [hend, hr]
  simp only [hend]
  by_cases hempty : p.fragEnd = p.dataFirst
  · have hsw : Swallowed q.fragments p := .inl hempty
    have hinv := h.queued hr (queued_of_swallowed h.chain h.meat hsw)
    simp [hempty, hr, hsw] at hinv ⊢
    exact hinv
  · have hlt : p.dataFirst < p.fragEnd := by
      have : p.dataFirst ≤ p.fragEnd := Nat.le_add_right ..
      omega
    obtain ⟨hq, hne, hok⟩ := ipFragInsert_spec
      (q := { q with lastIn := q.lastIn || !p.moreFrags, len := max q.len p.fragEnd })
      h.chain h.meat h.complete hp hlt
    have hinv := h.queued hr hq
    rw [if_neg (by exact_mod_cast hempty), hok, hinv.full_iff]
    exact ⟨⟨fun h1 => absurd h1 hne, fun h1 => absurd h1 hr⟩, fun h1 => absurd h1 hr, fun _ => hinv,
      ⟨fun h1 => ⟨hr, h1⟩, And.right⟩⟩

end IpqInv

theorem ipqRun_append_singleton (pkts : List Packet) (p : Packet) :
    ipqRun (pkts ++ [p]) = ((ipFragQueue (ipqRun pkts).1 p).1,
      if (ipFragQueue (ipqRun pkts).1 p).2 = .einval then (ipqRun pkts).2
      else (ipqRun pkts).2 ++ [p]) := by
  rw [ipqRun, foldl_append]
  rfl

theorem ipqRun_inv (pkts : List Packet) (h : ∀ p ∈ pkts, p.Fits) :
    IpqInv (ipqRun pkts).2 (ipqRun pkts).1 := by
  induction pkts using reverseRecOn with
  | nil => exact ipqInv_init
  | append_singleton pkts p ih =>
    have hinv := ih fun r hr => h r (by simp [hr])
    obtain ⟨hret, hsame, hnext, -⟩ := hinv.step (h p (by simp))
    rw [ipqRun_append_singleton]
    split_ifs with hr
    · exact (hsame (hret.mp hr)).symm ▸ hinv
    · exact hnext (hret.not.mp hr)

/-- Packets that agree about the end are all kept. -/
theorem ipqRun_kept {pkts : List Packet} (h : ∀ p ∈ pkts, p.Fits)
    (hagree : ∀ p ∈ pkts, ∀ r ∈ pkts, ¬p.Contradicts r) : (ipqRun pkts).2 = pkts := by
  induction pkts using reverseRecOn with
  | nil => rfl
  | append_singleton pkts p ih =>
    have hkept := ih (fun r hr => h r (by simp [hr])) fun r hr r' hr' =>
      hagree r (by simp [hr]) r' (by simp [hr'])
    have hinv := ipqRun_inv pkts fun r hr => h r (by simp [hr])
    have hnot : ¬Refused (ipqRun pkts).2 p := by
      rw [hkept]
      rintro ⟨r, hr, hrp | hrp⟩
      · exact hagree p (by simp) r (by simp [hr]) hrp
      · exact hagree r (by simp [hr]) p (by simp) hrp
    rw [ipqRun_append_singleton, if_neg ((hinv.step (h p (by simp))).1.not.mpr hnot), hkept]

/-- The packet is accepted by the other engines, has no bytes behind the IP packet, and fits:
payload byte 65535, which the other engines accept, is not in it. -/
def Packet.Exact (p : Packet) : Prop :=
  p.accept.isSome ∧ ipTotalLen p.data ipOff + 14 = p.sz ∧ p.Fits

theorem Packet.Exact.accept_eq {p : Packet} (h : p.Exact) :
    ∃ f, p.accept = some f ∧ f.first = p.dataFirst ∧ f.last + 1 = p.fragEnd ∧
      f.more = p.moreFrags := by
  obtain ⟨hsome, hsz, hfits⟩ := h
  obtain ⟨f, hf⟩ := isSome_iff_exists.mp hsome
  obtain ⟨hbad, -, h1, h2, h3⟩ := (Packet.accept_eq_some_iff p).mp hf
  simp only [Packet.badLength, Bool.or_eq_false_iff, decide_eq_false_iff_not] at hbad
  rw [Packet.dataLast] at h2
  refine ⟨f, hf, h1, ?_, h3⟩
  rw [Packet.fragEnd, Packet.dataFirst]
  omega

/-- Having the datagram means the same to the queue and to the engines with holes. -/
theorem received_iff_covered {pkts : List Packet} (h : ∀ p ∈ pkts, p.Exact) :
    Received pkts ↔ ∀ i ≤ mostRestrictingLast (pkts.filterMap Packet.accept),
      Covered (pkts.filterMap Packet.accept) i := by
  have hcov : ∀ i, Covered (pkts.filterMap Packet.accept) i ↔ ∃ p ∈ pkts, p.Holds i := by
    intro i
    constructor
    · rintro ⟨f, hf, h1, h2⟩
      obtain ⟨p, hp, hacc⟩ := mem_filterMap.mp hf
      obtain ⟨g, hg, hg1, hg2, -⟩ := (h p hp).accept_eq
      obtain rfl := some.inj (hacc.symm.trans hg)
      exact ⟨p, hp, by omega, by omega⟩
    · rintro ⟨p, hp, h1, h2⟩
      obtain ⟨f, hf, hf1, hf2, -⟩ := (h p hp).accept_eq
      exact ⟨f, mem_filterMap.mpr ⟨p, hp, hf⟩, by omega, by omega⟩
  constructor
  · rintro ⟨l, hl, hm, -, hall⟩ i hi
    obtain ⟨f, hf, -, hf2, hf3⟩ := (h l hl).accept_eq
    have := mostRestrictingLast_le_last (mem_filterMap.mpr ⟨l, hl, hf⟩) (hf3.trans hm)
    exact (hcov i).mpr (hall i (by omega))
  · intro hall
    -- no packet has byte 65535, so a last fragment sets the end
    obtain ⟨r, hr, hr'⟩ := (hcov _).mp (hall _ le_rfl)
    have hfin := (h r hr).2.2.fin
    have hlt := hr'.2
    obtain ⟨f, hf, hm, hlast⟩ := exists_last_of_lt
      (show mostRestrictingLast (pkts.filterMap Packet.accept) < 65535 by omega)
    obtain ⟨l, hl, hacc⟩ := mem_filterMap.mp hf
    obtain ⟨g, hg, -, hg2, hg3⟩ := (h l hl).accept_eq
    obtain rfl := some.inj (hacc.symm.trans hg)
    exact ⟨l, hl, hg3.symm.trans hm, by omega, fun i hi => (hcov i).mp (hall i (by omega))⟩

/-- On packets that end before payload byte 65535, without bytes behind the IP packet, and that
agree about the end of the datagram, the queue is full exactly when the linked-list engine and the
red-black tree engine in IPv4 mode are complete. -/
theorem engines_agree (pkts : List Packet) (h : ∀ p ∈ pkts, p.Exact)
    (hagree : ∀ p ∈ pkts, ∀ r ∈ pkts, ¬p.Contradicts r) :
    ((ipqRun pkts).1.Full ↔ reassctxComplete (reassctxRun pkts) = true) ∧
      ∀ heap rbhole, ∃ ctx, rbExplicitReassctxRun heap rbhole false pkts = some ctx ∧
        ((ipqRun pkts).1.Full ↔ rbExplicitReassctxComplete ctx = true) := by
  have hfits : ∀ p ∈ pkts, p.Fits := fun p hp => (h p hp).2.2
  have hinv := ipqRun_inv pkts hfits
  rw [ipqRun_kept hfits hagree] at hinv
  have hfull := hinv.full_iff.trans (received_iff_covered h)
  refine ⟨?_, fun heap rbhole => ?_⟩
  · have hlist : ReassInv (pkts.filterMap Packet.accept) (reassctxRun pkts) := reassctxRun_inv pkts
    rw [hfull, reassctxComplete_iff hlist, hlist.last]
  · obtain ⟨ctx, hrun, hctx⟩ := rbExplicitReassctxRun_inv heap rbhole pkts
    exact ⟨ctx, hrun, by rw [hfull, rbExplicitReassctxComplete_iff hctx, hctx.last]⟩

theorem engines_agree_sampleFrame : let pkts : List Packet := [⟨.uplink, 50, sampleFrame⟩]
    (∀ p ∈ pkts, p.Exact) ∧ (∀ p ∈ pkts, ∀ r ∈ pkts, ¬p.Contradicts r) ∧
      ((ipqRun pkts).1.Full ↔ reassctxComplete (reassctxRun pkts) = true) := by
  intro pkts
  have hexact : ∀ p ∈ pkts, p.Exact := by
    simp only [pkts, mem_singleton, forall_eq]
    exact ⟨by decide, by decide, by decide, by decide, by decide⟩
  have hagree : ∀ p ∈ pkts, ∀ r ∈ pkts, ¬p.Contradicts r := by
    simp only [pkts, mem_singleton, forall_eq]
    exact fun h => lt_irrefl _ h.2
  exact ⟨hexact, hagree, (engines_agree pkts hexact hagree).1⟩

/-! ## Fragments of one frame -/

theorem foldl_copyPiece_of_lt {j : ℕ} (h : j < pay2) (l : List Piece) (m : Mem) :
    l.foldl (copyPiece pay2) m j = m j := by
  induction l generalizing m with
  | nil => rfl
  | cons x l ih => rw [foldl_cons, ih, copyPiece, memcpy_of_notMem (by omega)]

theorem copyPiece_add {x : Piece} (hx : x.Ok) (m : Mem) (i : ℕ) :
    copyPiece pay2 m x (pay2 + i) =
      if x.offset ≤ i ∧ i < x.pkt.fragEnd then
        x.pkt.data (14 + ipHdrLen x.pkt.data ipOff + (i - x.pkt.dataFirst))
      else m (pay2 + i) := by
  have hend := hx.end_eq
  have hge := hx.ge
  have hlt := hx.lt
  have hfin := hx.fits.fin
  have hlen : ((x.pkt.sz - x.pulled : ℤ) % 18446744073709551616).toNat =
      x.pkt.fragEnd - x.offset := by omega
  have hwithin : toUint16 (x.offset - x.pkt.dataFirst) = x.offset - x.pkt.dataFirst := by
    rw [toUint16]; omega
  have hpay : ipPayload x.pkt.data ipOff = 14 + ipHdrLen x.pkt.data ipOff := rfl
  rw [copyPiece, hlen, hwithin]
  split_ifs with hi
  · rw [memcpy_of_mem (by omega) (by omega), hpay]
    congr 1
    omega
  · exact memcpy_of_notMem (by omega)

/-- If the packets of the chain agree with `src`, so does every byte of the chain after the copy
loop. -/
theorem foldl_copyPiece (src : ℕ → UInt8) (h : ∀ x ∈ l, x.Ok)
    (hsrc : ∀ x ∈ l, ∀ i, x.pkt.Holds i →
      x.pkt.data (14 + ipHdrLen x.pkt.data ipOff + (i - x.pkt.dataFirst)) = src i) (m : Mem) {i : ℕ}
    (hi : InChain l i) : l.foldl (copyPiece pay2) m (pay2 + i) = src i := by
  induction l using reverseRecOn with
  | nil => simp [InChain] at hi
  | append_singleton l x ih =>
    have hx := h x (by simp)
    rw [foldl_append, foldl_cons, foldl_nil, copyPiece_add hx]
    split_ifs with hix
    · exact hsrc x (by simp) i ⟨hx.ge.trans hix.1, hix.2⟩
    · refine ih (fun y hy => h y (by simp [hy])) (fun y hy => hsrc y (by simp [hy])) ?_
      rcases (inChain_append ..).mp hi with hi | ⟨y, hy, hi⟩
      · exact hi
      · rw [mem_singleton.mp hy] at hi
        exact absurd hi hix

section Frame

variable {e : Endian} {ether : Mem} {sz : ℕ} {fed : List Fragment}

theorem IsPiece.fits (hc : CanonicalFrame e ether sz) {start len : ℕ} {pkt : Packet}
    (hp : IsPiece ether sz start len pkt) :
    pkt.Fits ∧ pkt.dataFirst = start ∧ pkt.fragEnd = start + len ∧
      (pkt.moreFrags = false ↔ start + len = payloadLen ether sz) := by
  have hhl := hp.hdrLen hc.hdrLen_ge
  have hsize := hp.size
  have hle := hp.le
  have hlt := hc.lt
  have hfit := hc.hdrLen_le
  have hpay : payloadLen ether sz = sz - 14 - ipHdrLen ether ipOff := rfl
  have hfirst : pkt.dataFirst = start := hp.fragOff
  have hend : pkt.fragEnd = start + len := by
    rw [Packet.fragEnd, hfirst, hhl]
    omega
  refine ⟨⟨by omega, by omega, by omega⟩, hfirst, hend, ?_⟩
  rw [Packet.moreFrags, hp.more, decide_eq_false_iff_not]
  omega

theorem Pieces.fits (hc : CanonicalFrame e ether sz) (h : Pieces ether sz fed) {p : Packet}
    (hp : p ∈ Pieces.packets fed) :
    ∃ frag ∈ fed, p.Fits ∧ (∀ i, p.Holds i ↔ frag.Has i) ∧ p.fragEnd ≤ payloadLen ether sz ∧
      (p.moreFrags = false ↔ p.fragEnd = payloadLen ether sz) := by
  obtain ⟨frag, hfrag, -, hpiece⟩ := h.of_mem_packets hp
  obtain ⟨hfits, h1, h2, hmore⟩ := hpiece.fits hc
  refine ⟨frag, hfrag, hfits, fun i => ?_, h2 ▸ hpiece.le, h2 ▸ hmore⟩
  rw [Packet.Holds, Fragment.Has, h1, h2]

/-- Fragments of one frame never disagree, so all of them are kept. -/
theorem Pieces.ipqRun_kept (hc : CanonicalFrame e ether sz) (h : Pieces ether sz fed) :
    (ipqRun (Pieces.packets fed)).2 = Pieces.packets fed := by
  refine Ipfrag.ipqRun_kept (fun p hp => ?_) fun p hp r hr => ?_
  · obtain ⟨-, -, hfits, -⟩ := h.fits hc hp
    exact hfits
  · obtain ⟨-, -, -, -, -, hmore⟩ := h.fits hc hp
    obtain ⟨-, -, -, -, hle, -⟩ := h.fits hc hr
    rintro ⟨hm, hlt⟩
    have := hmore.mp hm
    omega

theorem Pieces.ipqRun_inv (hc : CanonicalFrame e ether sz) (h : Pieces ether sz fed) :
    IpqInv (Pieces.packets fed) (ipqRun (Pieces.packets fed)).1 := by
  have hinv := Ipfrag.ipqRun_inv (Pieces.packets fed) fun p hp => by
    obtain ⟨-, -, hfits, -⟩ := h.fits hc hp
    exact hfits
  rwa [h.ipqRun_kept hc] at hinv

theorem Pieces.holds_iff (hc : CanonicalFrame e ether sz) (h : Pieces ether sz fed) (i : ℕ) :
    (∃ p ∈ Pieces.packets fed, p.Holds i) ↔ ∃ frag ∈ fed, frag.Has i := by
  constructor
  · rintro ⟨p, hp, hi⟩
    obtain ⟨frag, hfrag, -, hhas, -⟩ := h.fits hc hp
    exact ⟨frag, hfrag, (hhas i).mp hi⟩
  · rintro ⟨frag, hfrag, hi⟩
    obtain ⟨p, hp, hpiece⟩ := h frag hfrag
    obtain ⟨-, h1, h2, -⟩ := hpiece.fits hc
    exact ⟨p, mem_filterMap.mpr ⟨frag, hfrag, hp⟩, h1 ▸ hi.1, h2 ▸ hi.2⟩

theorem Pieces.received_iff (hc : CanonicalFrame e ether sz) (h : Pieces ether sz fed) :
    Received (Pieces.packets fed) ↔ CoverPayload ether sz fed := by
  constructor
  · rintro ⟨l, hl, hm, hpos, hall⟩
    obtain ⟨-, -, -, -, -, hmore⟩ := h.fits hc hl
    rw [hmore.mp hm] at hpos hall
    exact ⟨hpos, fun i hi => (h.holds_iff hc i).mp (hall i hi)⟩
  · rintro ⟨hpos, hall⟩
    -- the packet with the final byte is a last fragment
    obtain ⟨l, hl, hlast⟩ := (h.holds_iff hc (payloadLen ether sz - 1)).mpr (hall _ (by omega))
    obtain ⟨-, -, -, -, hle, hmore⟩ := h.fits hc hl
    have := hlast.2
    exact ⟨l, hl, hmore.mpr (by omega), by omega, fun i hi => (h.holds_iff hc i).mpr
      (hall i (by omega))⟩

/-- A full queue of fragments of one frame is put together to the frame. -/
theorem Pieces.ipFragReassemble_restores (hc : CanonicalFrame e ether sz) (h : Pieces ether sz fed)
    (hcov : CoverPayload ether sz fed) :
    Restores ether sz fun alloc =>
      (ipFragReassemble e alloc (ipqRun (Pieces.packets fed)).1).map some := by
  intro alloc
  have hinv := h.ipqRun_inv hc
  set q := (ipqRun (Pieces.packets fed)).1
  have hpiece : ∀ x ∈ q.fragments, ∃ start len, IsPiece ether sz start len x.pkt := fun x hx => by
    obtain ⟨frag, -, -, hp⟩ := h.of_mem_packets (hinv.pkts x hx)
    exact ⟨_, _, hp⟩
  have hin : ∀ i < payloadLen ether sz, InChain q.fragments i := fun i hi =>
    (hinv.bytes i).mpr ((h.holds_iff hc i).mpr (hcov.2 i hi))
  have hge := hc.hdrLen_ge
  have hfit := hc.hdrLen_le
  have hpay : payloadLen ether sz = sz - 14 - ipHdrLen ether ipOff := rfl
  have hlen : q.len = payloadLen ether sz := by
    obtain ⟨l, hl, hm, -⟩ := (h.received_iff hc).mpr hcov
    obtain ⟨-, -, -, -, -, hmore⟩ := h.fits hc hl
    rw [hinv.len_last l hl hm, hmore.mp hm]
  obtain ⟨x, hx, -⟩ := hin 0 hcov.1
  obtain ⟨x, xs, hxs⟩ := exists_cons_of_ne_nil (ne_nil_of_mem hx)
  obtain ⟨start, len, hp⟩ := hpiece x (by simp [hxs])
  have hhl := hp.hdrLen hge
  set data := memcpy alloc.data 0 x.pkt.data 0 (14 + ipHdrLen ether ipOff) with hdata
  have hcopy : ∀ j < 14 + ipHdrLen ether ipOff, data j = x.pkt.data j := fun j hj => by
    rw [hdata, memcpy_of_mem (by omega) (by omega), Nat.sub_zero, Nat.zero_add]
  have hdlen : ipHdrLen data ipOff = ipHdrLen ether ipOff :=
    (ipHdrLen_congr (hcopy 14 (by omega))).trans hhl
  have htotal : (ipHdrLen ether ipOff + q.len).toNat = ipTotalLen ether ipOff := by
    rw [hc.totalLen]
    omega
  obtain ⟨m, hm, hr⟩ := rewriteHeader_spec e data ipOff false (Nat.zero_mod 8) (by omega)
    (ipTotalLen_lt ether ipOff) hdlen hge
  have hheader := hp.header_restored hc hcopy hr
  have hpay2 : ipPayload m ipOff = 14 + ipHdrLen ether ipOff := by
    rw [ipPayload, ipHdrLen_congr (hheader 14 (by omega))]
  refine ⟨⟨alloc.direction, (q.len + 14 + ipHdrLen ether ipOff).toNat,
    q.fragments.foldl (copyPiece (14 + ipHdrLen ether ipOff)) m⟩, ?_, by simp only; omega,
    fun j hj => ?_⟩
  · simp only [ipFragReassemble, hxs, head?_cons, hhl, etherHdrLen, ← hdata, hdlen, htotal, hm,
      hpay2, bind_eq_bind, bind_some, map_some]
  by_cases hjl : j < 14 + ipHdrLen ether ipOff
  · rw [← hheader j hjl]
    exact foldl_copyPiece_of_lt hjl _ m
  · obtain ⟨i, rfl⟩ := Nat.exists_eq_add_of_le (not_lt.mp hjl)
    refine foldl_copyPiece (fun i => ether (14 + ipHdrLen ether ipOff + i)) hinv.chain.1
      (fun y hy k hk => ?_) m (hin i (by omega))
    obtain ⟨start, len, hy⟩ := hpiece y hy
    obtain ⟨-, h1, h2, -⟩ := hy.fits hc
    obtain ⟨h3, h4⟩ := hk
    rw [hy.hdrLen hge, hy.payload _ (by omega)]
    congr 1
    omega

end Frame

/-- For every sequence of fragments of one frame: no packet is refused; the queue is full exactly
when the ranges are the whole nonempty payload, and then the frame comes back; and the fragment that
completes the payload is answered by 0. -/
theorem ipq_round_trip {e : Endian} {ether : Mem} {sz : ℕ} (hc : CanonicalFrame e ether sz)
    (fed : List Fragment) (hfed : ∀ frag ∈ fed, Produced e ether sz frag) :
    let (q, kept) := ipqRun (Pieces.packets fed)
    kept = Pieces.packets fed ∧ (q.Full ↔ CoverPayload ether sz fed) ∧
      (q.Full → Restores ether sz fun alloc => (ipFragReassemble e alloc q).map some) ∧
      ∀ frag pkt, Produced e ether sz frag → frag.pkt = some pkt →
        ¬CoverPayload ether sz fed → CoverPayload ether sz (fed ++ [frag]) →
        (ipFragQueue q pkt).2 = .ok := by
  have h : Pieces ether sz fed := pieces_of_produced hc.lt hfed
  have hinv := h.ipqRun_inv hc
  have hfull := hinv.full_iff.trans (h.received_iff hc)
  refine ⟨h.ipqRun_kept hc, hfull, fun hq => h.ipFragReassemble_restores hc (hfull.mp hq),
    fun frag pkt hfrag hpkt hbefore hafter => ?_⟩
  have h' : Pieces ether sz (fed ++ [frag]) := pieces_of_produced hc.lt fun f hf => by
    rcases mem_append.mp hf with hf | hf
    · exact hfed f hf
    · exact mem_singleton.mp hf ▸ hfrag
  have happ : Pieces.packets (fed ++ [frag]) = Pieces.packets fed ++ [pkt] := by
    simp [Pieces.packets, hpkt]
  have hrec := (h'.received_iff hc).mpr hafter
  have hkept := h'.ipqRun_kept hc
  obtain ⟨_, hpkt', hpiece⟩ := h' frag (by simp)
  obtain rfl := some.inj (hpkt'.symm.trans hpkt)
  obtain ⟨hfits, hfirst, hend, -⟩ := hpiece.fits hc
  obtain ⟨hret, -, -, hok⟩ := hinv.step hfits
  rw [happ] at hrec hkept
  refine hok.mpr ⟨fun hr => ?_, fun hs => hbefore ⟨hafter.1, fun i hi => ?_⟩, hrec⟩
  · rw [ipqRun_append_singleton, h.ipqRun_kept hc, if_pos (hret.mpr hr)] at hkept
    simp at hkept
  · -- a swallowed packet brings no byte that was missing
    obtain ⟨f, hf, hi⟩ := hafter.2 i hi
    rcases mem_append.mp hf with hf | hf
    · exact ⟨f, hf, hi⟩
    · rw [mem_singleton.mp hf] at hi
      obtain ⟨h1, h2⟩ := hi
      refine (h.holds_iff hc i).mp ((hinv.bytes i).mp ?_)
      rcases hs with hs | ⟨x, hx, h3, h4⟩
      · omega
      · exact ⟨x, hx, by omega, by omega⟩

theorem ipq_round_trip_sampleFrame :
    CanonicalFrame .little sampleFrame 50 ∧
      (∀ frag ∈ sampleFed, Produced .little sampleFrame 50 frag) ∧
      Restores sampleFrame 50 fun alloc =>
        (ipFragReassemble .little alloc (ipqRun (Pieces.packets sampleFed)).1).map some := by
  have h := ipq_round_trip sampleFrame_canonical sampleFed sampleFed_spec.2
  exact ⟨sampleFrame_canonical, sampleFed_spec.2, h.2.2.1 (h.2.1.mpr sampleFed_cover)⟩

end Pptk.Ipfrag
