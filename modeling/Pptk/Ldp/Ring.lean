import Mathlib.Data.List.Nodup
import Pptk.Ldp.InQueue
import Pptk.Lib.Machine

/-!
# The buffers of input queues

Runs of an input queue in which packets are received and their buffers are given back, in any order.

Main result: `in_queue_buffers`.
-/

namespace Pptk.Ldp

open Lib Mypcap Function List

/-! ## Runs -/

/-- A queue of a socket and the buffers that are outstanding. -/
structure SocketState where
  ring : RingBuf ℕ
  out : List ℕ

/-- A call for a socket. -/
inductive SocketCallOf
  | nextpkts (num : ℤ) (recv : Option (List Bool))
  | deallocateSome (bufs : List ℕ)

/-- A step of a socket: `none` if the call aborts, or if it gives back a buffer that is not
outstanding or the same buffer twice. -/
def socketStep (s : SocketState) : SocketCallOf → Option SocketState
  | .nextpkts num recv => (nextpktsSocket s.ring num recv).map fun c => ⟨c.ring, s.out ++ c.pkts⟩
  | .deallocateSome bufs =>
    if bufs.Nodup ∧ ∀ buf ∈ bufs, buf ∈ s.out then
      some ⟨deallocateSome s.ring bufs, s.out.filter fun buf => buf ∉ bufs⟩
    else none

/-- A queue of a capture file and the packets that are outstanding. -/
structure PcapState where
  bufs : PcapBufs
  out : List LdpPacket

/-- A call for a capture file; other queues may have changed the file before. -/
inductive PcapCallOf
  | nextpkts (env : JokerEnv) (left : SharedIn) (ifname : Option (List UInt8)) (sh : SharedIn)
    (num : ℤ)
  | deallocateSome (pkts : List LdpPacket)

/-- A step of a queue of a capture file, like `socketStep`. -/
def pcapStep (s : PcapState) : PcapCallOf → Option PcapState
  | .nextpkts env left ifname sh num =>
    (nextpktsTsPcap env left ifname s.bufs sh num).map fun c => ⟨c.bufs, s.out ++ c.pkt.toList⟩
  | .deallocateSome pkts =>
    if (pkts.map LdpPacket.data).Nodup ∧ ∀ pkt ∈ pkts, pkt ∈ s.out then
      some ⟨⟨deallocateSome s.bufs.ring (pkts.map fun pkt => (pkt.data, pkt.ancillarysz)),
        s.bufs.capacity⟩, s.out.filter fun pkt => pkt ∉ pkts⟩
    else none

/-- A socket with `n` buffers. -/
def socketInit (n : ℕ) (hn : 1 ≤ n) : SocketState := ⟨.full n hn id, []⟩

/-- A queue of a capture file with `n` buffers, which are not allocated yet. -/
def pcapInit (n : ℕ) (hn : 1 ≤ n) : PcapState := ⟨⟨.full n hn fun i => (i, 0), fun _ => 0⟩, []⟩

/-! ## Invariants -/

/-- If there are too many buffers to count, nothing ever happens. -/
def CanCount {α : Type} (r : RingBuf α) (outstanding : ℕ) : Prop :=
  r.cap ≤ intMax ∨ r.start = r.stop ∧ outstanding = 0

/-- Each buffer is either free or outstanding. -/
structure SocketInv (n : ℕ) (s : SocketState) : Prop where
  cap : s.ring.cap = n
  canCount : CanCount s.ring s.out.length
  pool : Pool (range n) s.ring.items s.out

/-- Each buffer is either free or outstanding, and its capacity is recorded with it. -/
structure PcapInv (n : ℕ) (s : PcapState) : Prop where
  cap : s.bufs.ring.cap = n
  canCount : CanCount s.bufs.ring s.out.length
  pool : Pool (range n) (s.bufs.ring.items.map Prod.fst) (s.out.map LdpPacket.data)
  free_capacity : ∀ x ∈ s.bufs.ring.items, x.2 = s.bufs.capacity x.1
  out_capacity : ∀ pkt ∈ s.out, pkt.ancillarysz = s.bufs.capacity pkt.data

theorem SocketInv.init (n : ℕ) (hn : 1 ≤ n) : SocketInv n (socketInit n hn) := by
  refine ⟨rfl, .inr ⟨rfl, rfl⟩, ?_, nodup_range⟩
  rw [socketInit, RingBuf.items_full, map_id, append_nil]

theorem PcapInv.init (n : ℕ) (hn : 1 ≤ n) : PcapInv n (pcapInit n hn) := by
  have hitems : (pcapInit n hn).bufs.ring.items = (range n).map fun i => (i, 0) :=
    RingBuf.items_full n hn _
  refine ⟨rfl, .inr ⟨rfl, rfl⟩, ⟨?_, nodup_range⟩, ?_, ?_⟩
  · rw [hitems, map_map]
    simp [pcapInit, comp_def]
  · intro x hx
    rw [hitems] at hx
    obtain ⟨i, -, rfl⟩ := mem_map.mp hx
    rfl
  · intro pkt hpkt
    exact absurd hpkt not_mem_nil

/-- A call of `nextpkts` is made with a number of buffers that can be counted, as it aborts
otherwise. -/
theorem CanCount.le {α : Type} {r : RingBuf α} {k : ℕ} (h : CanCount r k) (ha : amntFree r ≠ none) :
    r.cap ≤ intMax := by
  by_contra hle
  exact ha (amntFree_of_large (Nat.lt_of_not_le hle) (h.resolve_left hle).1)

theorem amntFree_of_nextpktsSocket {r : RingBuf ℕ} {num : ℤ} {recv : Option (List Bool)}
    {c : SocketCall} (h : nextpktsSocket r num recv = some c) : amntFree r ≠ none := by
  intro hnone
  rw [nextpktsSocket, hnone] at h
  split_ifs at h

theorem amntFree_of_nextpktsTsPcap {env : JokerEnv} {left sh : SharedIn}
    {ifname : Option (List UInt8)} {q : PcapBufs} {num : ℤ} {c : PcapCall}
    (h : nextpktsTsPcap env left ifname q sh num = some c) : amntFree q.ring ≠ none := by
  intro hnone
  rw [nextpktsTsPcap, hnone] at h
  exact nomatch h

theorem canCount_pushAll {α : Type} {r : RingBuf α} {k : ℕ} {xs : List α} (h : CanCount r k)
    (hle : xs.length ≤ k) (hroom : r.count + xs.length ≤ r.cap) (k' : ℕ) (hk' : k' ≤ k) :
    CanCount (r.pushAll xs) k' := by
  rcases h with h | ⟨hall, hk⟩
  · exact .inl ((RingBuf.items_pushAll hroom).2.trans_le h)
  · obtain rfl : xs = [] := length_eq_zero_iff.mp (by omega)
    exact .inr ⟨hall, by omega⟩

/-- Every call keeps each buffer either free or outstanding. -/
theorem SocketInv.step {n : ℕ} {s s' : SocketState} {a : SocketCallOf} (h : SocketInv n s)
    (hs : socketStep s a = some s') : SocketInv n s' := by
  obtain ⟨hcap, hcountable, hpool⟩ := h
  cases a with
  | nextpkts num recv =>
    obtain ⟨c, hc, rfl⟩ := Option.map_eq_some_iff.mp hs
    have hle : s.ring.cap ≤ intMax := hcountable.le (amntFree_of_nextpktsSocket hc)
    obtain ⟨⟨first, rest, back, hitems, hperm, hitems'⟩, hcap', -⟩ := received_nextpktsSocket hle hc
    refine ⟨hcap'.trans hcap, .inl (hcap'.trans_le hle), ?_⟩
    rw [hitems']
    exact (hitems ▸ hpool).receive hperm
  | deallocateSome bufs =>
    obtain ⟨⟨hnodup, hmem⟩, hs⟩ := Option.ite_none_right_eq_some.mp hs
    obtain rfl := Option.some.inj hs
    obtain ⟨hpool', hle⟩ := hpool.release hnodup hmem
    have hlen := hpool.length_eq
    rw [RingBuf.length_items, length_range, ← hcap] at hlen
    have hroom : s.ring.count + bufs.length ≤ s.ring.cap := by omega
    obtain ⟨hitems, hcap'⟩ := RingBuf.items_pushAll hroom
    refine ⟨hcap'.trans hcap, canCount_pushAll hcountable hle hroom _ (length_filter_le _ _), ?_⟩
    rw [deallocateSome, hitems]
    exact hpool'

/-- The same for a queue of a capture file. -/
theorem PcapInv.step {n : ℕ} {s s' : PcapState} {a : PcapCallOf} (h : PcapInv n s)
    (hs : pcapStep s a = some s') : PcapInv n s' := by
  obtain ⟨hcap, hcountable, hpool, hfree, hout⟩ := h
  cases a with
  | nextpkts env left ifname sh num =>
    obtain ⟨c, hc, rfl⟩ := Option.map_eq_some_iff.mp hs
    have hle : s.bufs.ring.cap ≤ intMax := hcountable.le (amntFree_of_nextpktsTsPcap hc)
    rcases nextpktsTsPcap_bufs hle hc with ⟨hpkt, hbufs⟩ | ⟨p, pkt, hpkt, hitems, hsz, hcapacity,
      hcap', -⟩
    · rw [hpkt, hbufs, Option.toList_none, append_nil]
      exact ⟨hcap, hcountable, hpool, hfree, hout⟩
    · rw [hpkt, Option.toList_some]
      rw [hitems, map_cons] at hpool
      rw [hitems, forall_mem_cons] at hfree
      -- only the capacity of the buffer that is handed out changes
      have hother : ∀ buf, buf ≠ pkt.data → c.bufs.capacity buf = s.bufs.capacity buf := by
        intro buf hbuf
        rw [hcapacity]
        split_ifs
        · exact update_of_ne hbuf _ _
        · rfl
      have hself : pkt.ancillarysz = c.bufs.capacity pkt.data := by
        rw [hcapacity]
        split_ifs with hgrow
        · rw [update_self]
        · rw [hsz, growCapacity, if_neg hgrow]
          exact hfree.1
      have hnodup := hpool.nodup_append
      rw [cons_append, nodup_cons] at hnodup
      refine ⟨hcap'.trans hcap, .inl (hcap'.trans_le hle), ?_, ?_, ?_⟩
      · rw [map_append]
        have := @Pool.receive _ _ _ [pkt.data] _ [pkt.data] [] hpool (.refl _)
        rwa [append_nil] at this
      · intro x hx
        rw [hother x.1 ?_]
        · exact hfree.2 x hx
        · intro heq
          have hfst : x.1 ∈ c.bufs.ring.items.map Prod.fst := mem_map_of_mem hx
          rw [heq] at hfst
          exact hnodup.1 (mem_append_left _ hfst)
      · intro pkt' hpkt'
        rcases mem_append.mp hpkt' with hmem | hmem
        · rw [hother pkt'.data ?_]
          · exact hout pkt' hmem
          · intro heq
            have hdata : pkt'.data ∈ s.out.map LdpPacket.data := mem_map_of_mem hmem
            rw [heq] at hdata
            exact hnodup.1 (mem_append_right _ hdata)
        · rw [mem_singleton.mp hmem]
          exact hself
  | deallocateSome pkts =>
    obtain ⟨⟨hnodup, hmem⟩, hs⟩ := Option.ite_none_right_eq_some.mp hs
    obtain rfl := Option.some.inj hs
    have hmem' : ∀ buf ∈ pkts.map LdpPacket.data, buf ∈ s.out.map LdpPacket.data := by
      intro buf hbuf
      obtain ⟨pkt, hpkt, rfl⟩ := mem_map.mp hbuf
      exact mem_map_of_mem (hmem pkt hpkt)
    obtain ⟨hpool', hle⟩ := hpool.release hnodup hmem'
    have hlen := hpool.length_eq
    rw [length_map, length_map, RingBuf.length_items, length_range, ← hcap] at hlen
    rw [length_map, length_map] at hle
    have hroom : s.bufs.ring.count + (pkts.map fun pkt => (pkt.data, pkt.ancillarysz)).length ≤
      s.bufs.ring.cap := by
      rw [length_map]
      omega
    obtain ⟨hitems, hcap'⟩ := RingBuf.items_pushAll hroom
    -- a packet is given back exactly if its buffer is
    have hfilter : (s.out.filter fun pkt => pkt ∉ pkts).map LdpPacket.data =
        (s.out.map LdpPacket.data).filter fun buf => buf ∉ pkts.map LdpPacket.data := by
      rw [filter_map]
      congr 1
      apply filter_congr
      intro pkt hpkt
      rw [comp_apply, decide_eq_decide, not_iff_not]
      refine ⟨fun h => mem_map_of_mem h, fun h => ?_⟩
      obtain ⟨pkt', hpkt', heq⟩ := mem_map.mp h
      have hinj := inj_on_of_nodup_map (nodup_append.mp hpool.nodup_append).2.1
      rwa [← hinj (hmem pkt' hpkt') hpkt heq]
    refine ⟨hcap'.trans hcap, canCount_pushAll hcountable (by rwa [length_map]) hroom _
      (length_filter_le _ _), ?_, ?_, ?_⟩
    · rw [deallocateSome, hitems, hfilter, map_append, map_map]
      exact hpool'
    · intro x hx
      rw [deallocateSome, hitems, mem_append, mem_map] at hx
      rcases hx with hx | ⟨pkt, hpkt, rfl⟩
      · exact hfree x hx
      · exact hout pkt (hmem pkt hpkt)
    · intro pkt hpkt
      exact hout pkt (mem_of_mem_filter hpkt)

/-! ## Whole runs -/

/-- What holds of a socket after any calls: the free and the outstanding buffers are all buffers,
one buffer is free, and neither the buffers that a further call receives into nor those that it
hands out are outstanding. -/
structure SocketOk (n : ℕ) (s : SocketState) : Prop where
  partition : (s.ring.items ++ s.out).Perm (range n)
  length_out : s.out.length ≤ n - 1
  next : ∀ num recv c, nextpktsSocket s.ring num recv = some c → ∀ buf ∈ c.iovecs ++ c.pkts,
    buf ∉ s.out

/-- The same for a queue of a capture file; moreover the capacity that is stored with a buffer is
the one that it was allocated with, and a packet fits in its buffer. -/
structure PcapOk (n : ℕ) (s : PcapState) : Prop where
  partition : (s.bufs.ring.items.map Prod.fst ++ s.out.map LdpPacket.data).Perm (range n)
  length_out : s.out.length ≤ n - 1
  free_capacity : ∀ x ∈ s.bufs.ring.items, x.2 = s.bufs.capacity x.1
  out_capacity : ∀ pkt ∈ s.out, pkt.ancillarysz = s.bufs.capacity pkt.data
  next : ∀ env left ifname sh num c, nextpktsTsPcap env left ifname s.bufs sh num = some c →
    ∀ pkt ∈ c.pkt, pkt.data ∉ s.out.map LdpPacket.data ∧ pkt.bytes.length ≤ c.bufs.capacity pkt.data

theorem SocketInv.ok {n : ℕ} {s : SocketState} (h : SocketInv n s) : SocketOk n s := by
  obtain ⟨hcap, hcountable, hpool⟩ := h
  refine ⟨hpool.perm, ?_, ?_⟩
  · have hlen := hpool.length_eq
    have hpos := s.ring.count_pos
    rw [RingBuf.length_items, length_range] at hlen
    omega
  · intro num recv c hc buf hbuf
    have hle : s.ring.cap ≤ intMax := hcountable.le (amntFree_of_nextpktsSocket hc)
    obtain ⟨⟨first, rest, back, hitems, hperm, -⟩, -, hiovecs⟩ := received_nextpktsSocket hle hc
    apply hpool.not_mem_out
    rcases mem_append.mp hbuf with hmem | hmem
    · exact hiovecs buf hmem
    · rw [hitems]
      exact mem_append_left _ (hperm.subset (mem_append_left _ hmem))

theorem PcapInv.ok {n : ℕ} {s : PcapState} (h : PcapInv n s) : PcapOk n s := by
  obtain ⟨hcap, hcountable, hpool, hfree, hout⟩ := h
  refine ⟨hpool.perm, ?_, hfree, hout, ?_⟩
  · have hlen := hpool.length_eq
    have hpos := s.bufs.ring.count_pos
    rw [length_map, length_map, RingBuf.length_items, length_range] at hlen
    omega
  · intro env left ifname sh num c hc pkt hpkt
    have hle : s.bufs.ring.cap ≤ intMax := hcountable.le (amntFree_of_nextpktsTsPcap hc)
    rcases nextpktsTsPcap_bufs hle hc with ⟨hnone, -⟩ | ⟨p, pkt', hpkt', hitems, hsz, hcapacity, -,
      hbytes⟩
    · rw [hnone] at hpkt
      exact nomatch hpkt
    obtain rfl : pkt' = pkt := Option.some.inj (hpkt'.symm.trans hpkt)
    constructor
    · apply hpool.not_mem_out
      rw [hitems]
      exact mem_cons_self
    · have hfits : handedLen p ≤ c.bufs.capacity pkt'.data := by
        rw [hcapacity]
        split_ifs with hgrow
        · rw [update_self, hsz]
          exact le_growCapacity _ _
        · have hfront := hfree (pkt'.data, s.bufs.ring.front.2)
            (by rw [hitems]; exact mem_cons_self)
          rw [← hfront]
          exact Nat.le_of_not_lt hgrow
      rw [hbytes, length_take]
      omega

/-- The buffers of both kinds of input queues, in every run. -/
theorem in_queue_buffers (n : ℕ) (hn : 1 ≤ n) :
    (∀ calls s, run socketStep (socketInit n hn) calls = some s → SocketOk n s) ∧
      ∀ calls s, run pcapStep (pcapInit n hn) calls = some s → PcapOk n s := by
  constructor
  · intro calls s hrun
    exact (run_invariant (fun s a s' h hs => SocketInv.step h hs) hrun (SocketInv.init n hn)).ok
  · intro calls s hrun
    exact (run_invariant (fun s a s' h hs => PcapInv.step h hs) hrun (PcapInv.init n hn)).ok

/-- Three buffers: two packets are received, the first of which is outgoing, and one of the buffers
is still out. -/
theorem in_queue_buffers_three :
    1 ≤ 3 ∧ ∃ s, run socketStep (socketInit 3 (by decide))
      [.nextpkts 5 (some [true, false, true])] = some s ∧
      s.ring.items = [2, 0] ∧ s.out = [1] ∧ SocketOk 3 s :=
  ⟨by decide, _, rfl, by decide, rfl,
    (in_queue_buffers 3 (by decide)).1 [.nextpkts 5 (some [true, false, true])] _ rfl⟩

end Pptk.Ldp
