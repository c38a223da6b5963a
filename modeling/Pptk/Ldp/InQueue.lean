import Mathlib.Tactic.Ring
import Pptk.Lib.FreeRing
import Pptk.Mypcap.Joker

/-!
# Input queues

Model of the input queues for sockets (`ldp/ldp.c`) and for capture files (`ldp/ldppcap.c`). A queue
keeps its free buffers in a ring; equal positions mean that all buffers are free. Buffers are
numbered: `realloc` may move a buffer, but does not change its number.

The name of the packet that was read last, `bufifname`, is that of an interface of the reader. It is
freed when a new section of a pcapng file begins, and comparing it after that is undefined.
-/

namespace Pptk.Ldp

open Lib Mypcap List

/-! ## Rings -/

/-- `INT_MAX`. -/
def intMax : ℕ := 2147483647

section Ring

variable {α : Type}

/-- `amnt_free` (ldp.c:552-560, ldppcap.c:262-270, 335-343), or `none` for `abort()`. The difference
of the positions is a `size_t` that is stored in an `int`. -/
def amntFree (r : RingBuf α) : Option ℤ :=
  let amnt := (((r.stop : ℤ) - r.start - 1) % 2 ^ 64).bmod (2 ^ 32)
  if amnt < 0 then if r.cap > intMax then none else some (amnt + r.cap) else some amnt

/-- `ldp_in_queue_deallocate_some_socket` and `ldp_in_queue_deallocate_some_pcap` (ldp.c:505-528,
ldppcap.c:226-250). -/
def deallocateSome (r : RingBuf α) (bufs : List α) : RingBuf α := r.pushAll bufs

/-- One less than the number of free buffers may be handed out. -/
theorem amntFree_eq {r : RingBuf α} (h : r.cap ≤ intMax) :
    amntFree r = some ((r.count : ℤ) - 1) := by
  have h1 := r.start_lt
  have h2 := r.stop_lt
  have hamnt : (((r.stop : ℤ) - r.start - 1) % 2 ^ 64).bmod (2 ^ 32) =
    (r.stop : ℤ) - r.start - 1 := by
    unfold intMax at h
    simp only [Int.bmod]
    split_ifs <;> omega
  unfold amntFree RingBuf.count
  dsimp only
  rw [hamnt]
  by_cases hlt : r.start < r.stop
  · rw [if_neg (by omega), if_pos hlt]
    congr 1
    omega
  · rw [if_pos (by omega), if_neg (by omega), if_neg hlt]
    congr 1
    omega

/-- With so many buffers the first call aborts. -/
theorem amntFree_of_large {r : RingBuf α} (h : intMax < r.cap) (hall : r.start = r.stop) :
    amntFree r = none := by
  have hamnt : (((r.stop : ℤ) - r.start - 1) % 2 ^ 64).bmod (2 ^ 32) = -1 := by
    rw [hall, sub_self]
    decide
  unfold amntFree
  dsimp only
  rw [hamnt, if_pos (by decide), if_pos h]

end Ring

/-! ## Sockets -/

/-- What a call of `ldp_in_queue_nextpkts_socket` does: the buffers that the kernel may receive
into, what it returns, the buffers of the packets that it hands out, and the ring. -/
structure SocketCall where
  iovecs : List ℕ
  ret : ℤ
  pkts : List ℕ
  ring : RingBuf ℕ

/-- The loop over the messages received, with their buffers and whether they are outgoing packets
(ldp.c:598-625). -/
def receiveLoop : List (ℕ × Bool) → RingBuf ℕ → List ℕ → List ℕ → RingBuf ℕ × List ℕ × List ℕ
  | [], r, pkts, missed => (r, pkts, missed)
  | (buf, outgoing) :: msgs, r, pkts, missed =>
    if outgoing = true then receiveLoop msgs r.skip pkts (missed ++ [buf])
    else receiveLoop msgs r.skip (pkts ++ [buf]) missed

/-- The buffers for `num` messages are given to `recvmmsg`, and the packets are handed out
(ldp.c:571-627). `recv` is what `recvmmsg` returns: an error, or for each message whether it is an
outgoing packet; there are at most as many messages as buffers. -/
def receive (r : RingBuf ℕ) (num : ℕ) (recv : Option (List Bool)) : SocketCall :=
  let iovecs := r.walk r.start num
  match recv with
  | none => ⟨iovecs, -1, [], r⟩
  | some marks =>
    let (r, pkts, missed) := receiveLoop (iovecs.zip marks) r [] []
    ⟨iovecs, pkts.length, pkts, deallocateSome r missed⟩

/-- `ldp_in_queue_nextpkts_socket` (ldp.c:530-628), or `none` for `abort()`. -/
def nextpktsSocket (r : RingBuf ℕ) (num : ℤ) (recv : Option (List Bool)) : Option SocketCall :=
  if num < 0 then none
  else
    match amntFree r with
    | none => none
    | some amnt =>
      if amnt = 0 then some ⟨[], 0, [], r⟩
      else some (receive r (if num > amnt then amnt else num).toNat recv)

theorem receiveLoop_eq (msgs : List (ℕ × Bool)) (r : RingBuf ℕ) (pkts missed : List ℕ) :
    receiveLoop msgs r pkts missed =
      (r.advance msgs.length, pkts ++ (msgs.filter fun m => !m.2).map Prod.fst,
        missed ++ (msgs.filter fun m => m.2).map Prod.fst) := by
  induction msgs generalizing r pkts missed with
  | nil => simp [receiveLoop, RingBuf.advance]
  | cons m msgs ih =>
    obtain ⟨buf, outgoing⟩ := m
    cases outgoing <;> simp [receiveLoop, ih, RingBuf.advance]

theorem map_fst_zip_eq_take {β γ : Type} (l : List β) (l' : List γ) :
    (l.zip l').map Prod.fst = l.take (l.zip l').length := by
  induction l generalizing l' with
  | nil => rfl
  | cons a l ih =>
    cases l' with
    | nil => rfl
    | cons b l' => rw [zip_cons_cons, map_cons, ih, length_cons, take_succ_cons]

/-- What a call did to the free buffers: of the first ones, which it received into, some are handed
out and the others become free again. -/
structure SocketCall.Received (c : SocketCall) (r : RingBuf ℕ) : Prop where
  items : ∃ first rest back, r.items = first ++ rest ∧ (c.pkts ++ back).Perm first ∧
    c.ring.items = rest ++ back
  cap : c.ring.cap = r.cap
  iovecs : ∀ buf ∈ c.iovecs, buf ∈ r.items

theorem received_nothing (r : RingBuf ℕ) (iovecs : List ℕ) (ret : ℤ)
    (h : ∀ buf ∈ iovecs, buf ∈ r.items) : SocketCall.Received ⟨iovecs, ret, [], r⟩ r :=
  ⟨⟨[], r.items, [], rfl, .nil, (append_nil _).symm⟩, rfl, h⟩

theorem received_receive {r : RingBuf ℕ} {num : ℕ} (recv : Option (List Bool)) (h : num < r.count) :
    (receive r num recv).Received r := by
  have hwalk : r.walk r.start num = r.items.take num := RingBuf.walk_start h.le
  have hiovecs : ∀ buf ∈ r.items.take num, buf ∈ r.items := fun buf hbuf => mem_of_mem_take hbuf
  unfold receive
  dsimp only
  rw [hwalk]
  cases recv with
  | none => exact received_nothing r _ _ hiovecs
  | some marks =>
    dsimp only
    rw [receiveLoop_eq]
    dsimp only
    rw [nil_append, nil_append]
    have hmap : ((r.items.take num).zip marks).map Prod.fst =
      r.items.take ((r.items.take num).zip marks).length := by
      rw [map_fst_zip_eq_take, take_take, min_eq_left]
      rw [length_zip, length_take]
      omega
    have hlen : ((r.items.take num).zip marks).length < r.count := by
      rw [length_zip, length_take, r.length_items]
      omega
    generalize (r.items.take num).zip marks = msgs at hmap hlen ⊢
    have hsplit : ((msgs.filter fun m => !m.2).map Prod.fst ++
      (msgs.filter fun m => m.2).map Prod.fst).Perm
        (r.items.take msgs.length) := by
      rw [← hmap, ← map_append]
      exact (perm_append_comm.trans (filter_append_perm _ msgs)).map Prod.fst
    obtain ⟨hitems, hcount, hcap⟩ := RingBuf.items_advance hlen
    have hle : (r.advance msgs.length).count + ((msgs.filter fun m => m.2).map Prod.fst).length ≤
        (r.advance msgs.length).cap := by
      have := length_filter_le (fun m : ℕ × Bool => m.2) msgs
      have := r.count_le
      rw [length_map, hcap]
      omega
    obtain ⟨hpush, hpushcap⟩ := RingBuf.items_pushAll hle
    refine ⟨⟨r.items.take msgs.length, r.items.drop msgs.length,
      (msgs.filter fun m => m.2).map Prod.fst,
      (take_append_drop _ _).symm, hsplit, ?_⟩, hpushcap.trans hcap, hiovecs⟩
    rw [← hitems]
    exact hpush

/-- The buffers that are received into are the first free ones, and the outgoing packets among them
become free again. -/
theorem received_nextpktsSocket {r : RingBuf ℕ} {num : ℤ} {recv : Option (List Bool)}
    {c : SocketCall} (hcap : r.cap ≤ intMax) (h : nextpktsSocket r num recv = some c) :
    c.Received r := by
  unfold nextpktsSocket at h
  rw [amntFree_eq hcap] at h
  dsimp only at h
  by_cases hnum : num < 0
  · rw [if_pos hnum] at h
    exact absurd h (by simp)
  rw [if_neg hnum] at h
  by_cases hzero : (r.count : ℤ) - 1 = 0
  · rw [if_pos hzero] at h
    rw [← Option.some.inj h]
    exact received_nothing r [] 0 fun buf hbuf => absurd hbuf not_mem_nil
  · rw [if_neg hzero] at h
    rw [← Option.some.inj h]
    apply received_receive
    have := r.count_pos
    split_ifs <;> omega

/-! ## Capture files -/

/-- `struct ldp_capture_shared_in_pcap` (ldppcap.c:54-68): whether a packet is kept for another
queue, the packet that was read last, whether its name has been freed since, whether the end of the
file was reached, and the reader. -/
structure SharedIn where
  bufValid : Bool
  cur : Packet
  freed : Bool
  eof : Bool
  ctx : JokerCtx

/-- The string that `bufifname` points to, or `none` if it is `NULL` or has been freed. -/
def SharedIn.bufifname (sh : SharedIn) : Option (List UInt8) :=
  if sh.freed = true then none else sh.cur.ifname

/-- `struct ldp_packet` (ldp.h:98-108) of a capture file, with the bytes that its buffer holds. -/
structure LdpPacket where
  data : ℕ
  sz : ℕ
  ancillarysz : ℕ
  bytes : List UInt8
  deriving DecidableEq

/-- The buffers of a queue: the ring with `bufs` and `bufcapacities`, and the capacity that each
buffer was allocated with last. -/
structure PcapBufs where
  ring : RingBuf (ℕ × ℕ)
  capacity : ℕ → ℕ

/-- The capacity of a buffer that is to hold `min` bytes (ldppcap.c:275-290). -/
def growCapacity (capacity min : ℕ) : ℕ :=
  if capacity < min then if capacity * 2 % 2 ^ 64 < min then min else capacity * 2 % 2 ^ 64
    else capacity

/-- The number of bytes of a packet that are handed out (ldppcap.c:257-261). -/
def handedLen (p : Packet) : ℕ := if p.len > p.snap then p.snap else p.len

/-- `ldp_in_queue_intern` (ldppcap.c:253-300), or `none` for `abort()`. -/
def internPcap (q : PcapBufs) (p : Packet) : Option (LdpPacket × PcapBufs) :=
  match amntFree q.ring with
  | none => none
  | some amnt =>
    if amnt = 0 then none
    else
      let (buf, capacity) := q.ring.front
      let newcapacity := growCapacity capacity (handedLen p)
      let allocated := if capacity < handedLen p then Function.update q.capacity buf newcapacity
        else q.capacity
      some (⟨buf, handedLen p % 2 ^ 32, newcapacity,
        p.data.take (handedLen p)⟩, ⟨(q.ring.setFront (buf, newcapacity)).skip, allocated⟩)

/-- What a call of `ldp_in_queue_nextpkts_ts_pcap` returns, the packet that it hands out, `*ts`, the
buffers and the file. -/
structure PcapCall where
  ret : ℤ
  pkt : Option LdpPacket
  ts : UInt64
  bufs : PcapBufs
  shared : SharedIn

/-- The packet that was read last is for the queue: the queue has no name, or that of the interface
(ldppcap.c:367-368, 407-408). The result is `none` if `strcmp` is called with a name that is no
string. -/
def SharedIn.accepts (sh : SharedIn) : Option (List UInt8) → Option Bool
  | none => some true
  | some name => sh.bufifname.map fun bufifname => decide (name = bufifname)

/-- The packet that was read last is handed out (ldppcap.c:370-379, 412-421). -/
def deliver (q : PcapBufs) (sh : SharedIn) : Option PcapCall :=
  (internPcap q sh.cur).map fun (pkt, q) =>
    ⟨1, some pkt, sh.cur.time64, q, { sh with bufValid := false }⟩

section Nextpkts

variable (env : JokerEnv) (left : SharedIn) (ifname : Option (List UInt8)) (q : PcapBufs)
  (sh : SharedIn)

/-- The next packet is read (ldppcap.c:382-430). A simple packet is read with the return value 0,
and `left` is what an error leaves in the reader and in the fields. -/
def readNext : Option PcapCall :=
  match pcapJokerCtxRead env sh.ctx with
  | none => none
  | some (.error _, _) =>
    some ⟨-1, none, left.cur.time64, q, { left with bufValid := sh.bufValid, eof := true }⟩
  | some (.eof, ctx) =>
    let freed := sh.freed || decide (ctx.frees ≠ sh.ctx.frees)
    some ⟨0, none, sh.cur.time64, q, { sh with freed := freed, eof := true, ctx := ctx }⟩
  | some (.simple p, ctx) =>
    some ⟨0, none, p.time64, q, { sh with cur := p, freed := false, eof := true, ctx := ctx }⟩
  | some (.packet p, ctx) =>
    let sh := { sh with cur := p, freed := false, ctx := ctx }
    match sh.accepts ifname with
    | none => none
    | some true => deliver q sh
    | some false => some ⟨0, none, p.time64, q, { sh with bufValid := true }⟩

/-- `ldp_in_queue_nextpkts_ts_pcap` (ldppcap.c:320-430) for a queue with a file, or `none` for
`abort()` and if the behaviour is undefined. -/
def nextpktsTsPcap (num : ℤ) : Option PcapCall :=
  match amntFree q.ring with
  | none => none
  | some amnt =>
    if amnt = 0 then some ⟨-1, none, sh.cur.time64, q, sh⟩
    else if num = 0 then some ⟨0, none, sh.cur.time64, q, sh⟩
    else if sh.bufValid = true then
      match sh.accepts ifname with
      | none => none
      | some true => deliver q sh
      | some false => readNext env left ifname q sh
    else readNext env left ifname q sh

end Nextpkts

theorem le_growCapacity (capacity min : ℕ) : min ≤ growCapacity capacity min := by
  unfold growCapacity
  split_ifs <;> omega

/-- What handing out a packet did: the first free buffer was taken, and enlarged if it was too
small. -/
structure Interned (q : PcapBufs) (p : Packet) (pkt : LdpPacket) (q' : PcapBufs) : Prop where
  items : q.ring.items = (pkt.data, q.ring.front.2) :: q'.ring.items
  ancillarysz : pkt.ancillarysz = growCapacity q.ring.front.2 (handedLen p)
  capacity : q'.capacity =
    if q.ring.front.2 < handedLen p then Function.update q.capacity pkt.data pkt.ancillarysz
      else q.capacity
  cap : q'.ring.cap = q.ring.cap
  bytes : pkt.bytes = p.data.take (handedLen p)

/-- A packet is copied to the first free buffer, whose capacity is large enough then. -/
theorem internPcap_eq {q : PcapBufs} (p : Packet) (hcap : q.ring.cap ≤ intMax)
    (hfree : 1 < q.ring.count) :
    ∃ pkt q', internPcap q p = some (pkt, q') ∧ Interned q p pkt q' := by
  have hamnt : amntFree q.ring = some ((q.ring.count : ℤ) - 1) := amntFree_eq hcap
  have hintern : internPcap q p =
      some (⟨q.ring.front.1, handedLen p % 2 ^ 32, growCapacity q.ring.front.2 (handedLen p),
        p.data.take (handedLen p)⟩,
        ⟨(q.ring.setFront (q.ring.front.1, growCapacity q.ring.front.2 (handedLen p))).skip,
          if q.ring.front.2 < handedLen p then
            Function.update q.capacity q.ring.front.1 (growCapacity q.ring.front.2 (handedLen p))
          else q.capacity⟩) := by
    unfold internPcap
    rw [hamnt]
    dsimp only
    rw [if_neg (by omega)]
  refine ⟨_, _, hintern, ⟨?_, rfl, rfl, rfl, rfl⟩⟩
  rw [RingBuf.items_setFront_skip _ hfree]
  exact RingBuf.items_skip hfree

theorem deliver_eq {q : PcapBufs} {sh : SharedIn} (hcap : q.ring.cap ≤ intMax)
    (hfree : 1 < q.ring.count) :
    ∃ pkt q', Interned q sh.cur pkt q' ∧
      deliver q sh = some ⟨1, some pkt, sh.cur.time64, q', { sh with bufValid := false }⟩ := by
  obtain ⟨pkt, q', hintern, h⟩ := internPcap_eq sh.cur hcap hfree
  refine ⟨pkt, q', h, ?_⟩
  rw [deliver, hintern]
  rfl

section Bufs

variable {env : JokerEnv} {left : SharedIn} {ifname : Option (List UInt8)} {q : PcapBufs}
  {sh : SharedIn} {num : ℤ} {c : PcapCall}

/-- A packet has been handed out, or the buffers are as they were. -/
def PcapCall.Bufs (c : PcapCall) (q : PcapBufs) : Prop :=
  c.pkt = none ∧ c.bufs = q ∨ ∃ p pkt, c.pkt = some pkt ∧ Interned q p pkt c.bufs

theorem bufs_of_eq {ret : ℤ} {ts : UInt64} {sh : SharedIn}
    (h : some ⟨ret, none, ts, q, sh⟩ = some c) : c.Bufs q := by
  rw [← Option.some.inj h]
  exact .inl ⟨rfl, rfl⟩

theorem deliver_bufs (hcap : q.ring.cap ≤ intMax) (hfree : 1 < q.ring.count)
    (h : deliver q sh = some c) : c.Bufs q := by
  obtain ⟨pkt, q', hinterned, heq⟩ := @deliver_eq q sh hcap hfree
  rw [← Option.some.inj (heq.symm.trans h)]
  exact .inr ⟨sh.cur, pkt, rfl, hinterned⟩

theorem readNext_bufs (hcap : q.ring.cap ≤ intMax) (hfree : 1 < q.ring.count)
    (h : readNext env left ifname q sh = some c) : c.Bufs q := by
  unfold readNext at h
  split at h
  · exact nomatch h
  · exact bufs_of_eq h
  · exact bufs_of_eq h
  · exact bufs_of_eq h
  · dsimp only at h
    split at h
    · exact nomatch h
    · exact deliver_bufs hcap hfree h
    · exact bufs_of_eq h

/-- A call hands out a packet or leaves the buffers as they are. -/
theorem nextpktsTsPcap_bufs (hcap : q.ring.cap ≤ intMax)
    (h : nextpktsTsPcap env left ifname q sh num = some c) : c.Bufs q := by
  have hpos := q.ring.count_pos
  unfold nextpktsTsPcap at h
  rw [amntFree_eq hcap] at h
  dsimp only at h
  by_cases hzero : (q.ring.count : ℤ) - 1 = 0
  · rw [if_pos hzero] at h
    exact bufs_of_eq h
  have hfree : 1 < q.ring.count := by omega
  rw [if_neg hzero] at h
  split_ifs at h with hnum hbuf
  · exact bufs_of_eq h
  · split at h
    · exact nomatch h
    · exact deliver_bufs hcap hfree h
    · exact readNext_bufs hcap hfree h
  · exact readNext_bufs hcap hfree h

end Bufs

end Pptk.Ldp
