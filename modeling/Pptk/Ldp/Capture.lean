import Pptk.Ldp.InQueue
import Pptk.Lib.Machine

/-!
# Input queues that share a capture file

Queues that are opened with the same file read it through one reader, and a packet for another queue
is kept in a buffer for one packet (`buf_valid`). Runs in which the queues are polled in any order.

Main results: `nextpktsTsPcap_cases`, `NextpktsCase.total` and `capture_delivery_iff`.
-/

namespace Pptk.Ldp

open Lib Mypcap Function List Option

/-! ## Files -/

/-- The file can be read to its end, and the interfaces of all packets have names. -/
def Readable (env : JokerEnv) (ctx : JokerCtx) : Prop :=
  ∃ ps, reads env ctx ps = true ∧ ∀ p ∈ ps, p.ifname ≠ none

/-- The bytes of a packet that are handed out. -/
def handed (p : Packet) : List UInt8 := p.data.take (handedLen p)

/-- What the queue with the given name is to be given of the packets of a file. -/
def expected (file : List Packet) (name : List UInt8) : List (List UInt8) :=
  (file.filter fun p => p.ifname = some name).map handed

theorem expected_cons (p : Packet) (file : List Packet) (name : List UInt8) :
    expected (p :: file) name = (if p.ifname = some name then [handed p] else []) ++
      expected file name := by
  rw [expected, filter_cons]
  by_cases hname : p.ifname = some name
  · rw [if_pos (decide_eq_true hname), if_pos hname, map_cons]
    rfl
  · rw [if_neg (by simpa using hname), if_neg hname]
    rfl

section Reading

variable {env : JokerEnv} {ctx ctx' : JokerCtx} {p : Packet}

theorem Readable.read (h : Readable env ctx) :
    ∃ ctx', pcapJokerCtxRead env ctx = some (.eof, ctx') ∨
      ∃ p, pcapJokerCtxRead env ctx = some (.packet p, ctx') := by
  obtain ⟨_ | ⟨p, ps⟩, hreads, -⟩ := h
  · obtain ⟨ctx', hread⟩ := reads_nil_iff.mp hreads
    exact ⟨ctx', .inl hread⟩
  · obtain ⟨ctx', hread, -⟩ := reads_cons_iff.mp hreads
    exact ⟨ctx', .inr ⟨p, hread⟩⟩

theorem Readable.of_eof (hread : pcapJokerCtxRead env ctx = some (.eof, ctx')) :
    unread env ctx = [] ∧ unread env ctx' = [] ∧ Readable env ctx' := by
  have hend := reads_nil_iff.mpr ⟨ctx', pcapJokerCtxRead_of_eof hread⟩
  exact ⟨unread_eq (reads_nil_iff.mpr ⟨ctx', hread⟩), unread_eq hend, [], hend,
    fun p hp => absurd hp not_mem_nil⟩

theorem Readable.of_packet (h : Readable env ctx)
    (hread : pcapJokerCtxRead env ctx = some (.packet p, ctx')) :
    p.ifname ≠ none ∧ unread env ctx = p :: unread env ctx' ∧ Readable env ctx' := by
  obtain ⟨_ | ⟨p', ps⟩, hreads, hnames⟩ := h
  · obtain ⟨c, hc⟩ := reads_nil_iff.mp hreads
    exact nomatch (Prod.mk.inj (some.inj (hc.symm.trans hread))).1
  · obtain ⟨c, hc, hrest⟩ := reads_cons_iff.mp hreads
    obtain ⟨hp, rfl⟩ := Prod.mk.inj (some.inj (hc.symm.trans hread))
    obtain rfl := ReadRet.packet.inj hp
    obtain ⟨hname, hnames⟩ := forall_mem_cons.mp hnames
    rw [unread_eq hreads, unread_eq hrest]
    exact ⟨hname, rfl, ps, hrest, hnames⟩

end Reading

/-! ## One call -/

/-- The buffer holds a packet for the queue with the given name. -/
def SharedIn.Holds (sh : SharedIn) (name : List UInt8) : Prop :=
  sh.bufValid = true ∧ sh.bufifname = some name

instance (sh : SharedIn) (name : List UInt8) : Decidable (sh.Holds name) :=
  inferInstanceAs (Decidable (_ ∧ _))

/-- The buffer holds a packet whose name is no string (any more). -/
def SharedIn.Dangles (sh : SharedIn) : Prop := sh.bufValid = true ∧ sh.bufifname = none

instance (sh : SharedIn) : Decidable sh.Dangles := inferInstanceAs (Decidable (_ ∧ _))

/-- Reading finds the end of the file, and no new section on the way. -/
def SharedIn.atEnd (env : JokerEnv) (sh : SharedIn) : Bool :=
  match pcapJokerCtxRead env sh.ctx with
  | some (.eof, ctx) => decide (ctx.frees = sh.ctx.frees)
  | _ => false

/-- What a call for the queue with the given name does, if it has free buffers and is to return a
packet: it hands out the packet from the buffer, reaches the end of the file, hands out the next
packet, or puts it in the buffer. -/
inductive NextpktsCase (env : JokerEnv) (name : List UInt8) (sh : SharedIn) :
    Option LdpPacket → SharedIn → Prop
  | buffered (pkt : LdpPacket) (hholds : sh.Holds name) (hbytes : pkt.bytes = handed sh.cur) :
      NextpktsCase env name sh (some pkt) { sh with bufValid := false }
  | eof (ctx : JokerCtx) (hholds : ¬sh.Holds name)
      (hread : pcapJokerCtxRead env sh.ctx = some (.eof, ctx)) :
      NextpktsCase env name sh none
        { sh with freed := sh.freed || decide (ctx.frees ≠ sh.ctx.frees), eof := true, ctx := ctx }
  | read (pkt : LdpPacket) (p : Packet) (ctx : JokerCtx) (hholds : ¬sh.Holds name)
      (hread : pcapJokerCtxRead env sh.ctx = some (.packet p, ctx)) (hname : p.ifname = some name)
      (hbytes : pkt.bytes = handed p) :
      NextpktsCase env name sh (some pkt) { sh with
        bufValid := false, cur := p, freed := false, ctx := ctx }
  | keep (p : Packet) (ctx : JokerCtx) (hholds : ¬sh.Holds name)
      (hread : pcapJokerCtxRead env sh.ctx = some (.packet p, ctx)) (hname : p.ifname ≠ some name) :
      NextpktsCase env name sh none { sh with
        bufValid := true, cur := p, freed := false, ctx := ctx }

section Cases

variable {env : JokerEnv} {left : SharedIn} {name : List UInt8} {q : PcapBufs} {sh sh' : SharedIn}
  {num : ℤ}
  {pkt : Option LdpPacket}

theorem readNext_cases (hcap : q.ring.cap ≤ intMax) (hfree : 1 < q.ring.count)
    (hread : Readable env sh.ctx) (hholds : ¬sh.Holds name) :
    ∃ c, readNext env left (some name) q sh = some c ∧ NextpktsCase env name sh c.pkt c.shared := by
  unfold readNext
  obtain ⟨ctx, heof | ⟨p, hp⟩⟩ := hread.read
  · rw [heof]
    exact ⟨_, rfl, .eof ctx hholds heof⟩
  · rw [hp]
    obtain ⟨ifname, hifname⟩ := ne_none_iff_exists'.mp (hread.of_packet hp).1
    dsimp only
    set sh1 : SharedIn := { sh with cur := p, freed := false, ctx := ctx } with hsh1
    have haccepts : sh1.accepts (some name) = some (decide (name = ifname)) := by
      rw [SharedIn.accepts, show sh1.bufifname = some ifname from hifname]
      rfl
    rw [haccepts]
    by_cases hname : name = ifname
    · rw [decide_eq_true hname]
      obtain ⟨pkt, q', hinterned, hdeliver⟩ := @deliver_eq q sh1 hcap hfree
      exact ⟨_, hdeliver, .read pkt p ctx hholds hp (hname ▸ hifname) hinterned.bytes⟩
    · rw [decide_eq_false hname]
      refine ⟨_, rfl, .keep p ctx hholds hp fun h => hname ?_⟩
      exact some.inj (h.symm.trans hifname)

/-- A call compares a name that is no string, or it does one of the four things. -/
theorem nextpktsTsPcap_cases (hcap : q.ring.cap ≤ intMax) (hfree : 1 < q.ring.count)
    (hnum : 1 ≤ num) (hread : Readable env sh.ctx) :
    sh.Dangles ∧ nextpktsTsPcap env left (some name) q sh num = none ∨
      ¬sh.Dangles ∧ ∃ c, nextpktsTsPcap env left (some name) q sh num = some c ∧
        NextpktsCase env name sh c.pkt c.shared := by
  unfold nextpktsTsPcap
  rw [amntFree_eq hcap]
  dsimp only
  rw [if_neg (by omega), if_neg (by omega)]
  by_cases hvalid : sh.bufValid = true
  · rw [if_pos hvalid, SharedIn.accepts]
    cases hifname : sh.bufifname with
    | none => exact .inl ⟨⟨hvalid, hifname⟩, rfl⟩
    | some ifname =>
      refine .inr ⟨fun h => some_ne_none _ (hifname.symm.trans h.2), ?_⟩
      rw [map_some]
      by_cases hname : name = ifname
      · rw [decide_eq_true hname]
        obtain ⟨pkt, q', hinterned, hdeliver⟩ := @deliver_eq q sh hcap hfree
        exact ⟨_, hdeliver, .buffered pkt ⟨hvalid, hname ▸ hifname⟩ hinterned.bytes⟩
      · rw [decide_eq_false hname]
        refine readNext_cases hcap hfree hread fun h => hname ?_
        exact some.inj (h.2.symm.trans hifname)
  · rw [if_neg hvalid]
    exact .inr ⟨fun h => hvalid h.1, readNext_cases hcap hfree hread fun h => hvalid h.1⟩

/-! ## What is still to be delivered -/

/-- The packet in the buffer, if it is for the queue. -/
def SharedIn.kept (sh : SharedIn) (name : List UInt8) : List (List UInt8) :=
  if sh.Holds name then [handed sh.cur] else []

/-- The packets that the queue can still be given. -/
noncomputable def SharedIn.toDeliver (env : JokerEnv) (sh : SharedIn) (name : List UInt8) :
    List (List UInt8) :=
  sh.kept name ++ expected (unread env sh.ctx) name

theorem SharedIn.kept_of_not_holds (h : ¬sh.Holds name) : sh.kept name = [] := if_neg h

theorem SharedIn.kept_of_not_valid (h : sh.bufValid = false) : sh.kept name = [] :=
  kept_of_not_holds fun hholds => absurd (h.symm.trans hholds.1) Bool.false_ne_true

theorem SharedIn.kept_congr (h : sh'.Holds name ↔ sh.Holds name) (hcur : sh'.cur = sh.cur) :
    sh'.kept name = sh.kept name := by
  rw [SharedIn.kept, SharedIn.kept, hcur]
  exact if_congr h rfl rfl

/-- What a call of `nextpkts` for the queue `name` does to the packets that a queue is given: either
nothing is lost, or the packet in the buffer is lost. -/
theorem NextpktsCase.total (h : NextpktsCase env name sh pkt sh') (hread : Readable env sh.ctx)
    (name' : List UInt8) :
    (if name' = name then (pkt.map LdpPacket.bytes).toList else []) ++ sh'.toDeliver env name' =
      if sh.Holds name ∨ sh.atEnd env = true then sh.toDeliver env name'
      else expected (unread env sh.ctx) name' := by
  unfold SharedIn.toDeliver
  cases h with
  | buffered pkt hholds hbytes =>
    have hcond : sh.Holds name ∨ sh.atEnd env = true := .inl hholds
    rw [if_pos hcond, map_some, toList_some, hbytes, SharedIn.kept_of_not_valid rfl,
      nil_append, SharedIn.kept]
    congr 1
    refine if_congr ⟨fun heq => heq ▸ hholds, fun h => ?_⟩ rfl rfl
    exact some.inj (h.2.symm.trans hholds.2)
  | eof ctx hholds hend =>
    obtain ⟨hnil, hnil', -⟩ := Readable.of_eof hend
    rw [map_none, toList_none, ite_self, nil_append, hnil, hnil']
    by_cases hfrees : ctx.frees = sh.ctx.frees
    · have hat : sh.atEnd env = true := by
        rw [SharedIn.atEnd, hend]
        exact decide_eq_true hfrees
      rw [if_pos (.inr hat)]
      congr 1
      refine SharedIn.kept_congr ?_ rfl
      unfold SharedIn.Holds SharedIn.bufifname
      dsimp only
      rw [decide_eq_false (not_not.mpr hfrees), Bool.or_false]
    · have hat : ¬sh.atEnd env = true := by
        rw [SharedIn.atEnd, hend]
        exact fun h => hfrees (of_decide_eq_true h)
      rw [if_neg (not_or.mpr ⟨hholds, hat⟩), SharedIn.kept_of_not_holds, nil_append]
      -- the name has been freed
      intro h
      replace h := h.2
      unfold SharedIn.bufifname at h
      dsimp only at h
      rw [decide_eq_true hfrees, Bool.or_true, if_pos rfl] at h
      exact nomatch h
  | read pkt p ctx hholds hp hname hbytes =>
    have hat : ¬sh.atEnd env = true := by
      rw [SharedIn.atEnd, hp]
      exact Bool.false_ne_true
    rw [if_neg (not_or.mpr ⟨hholds, hat⟩), (hread.of_packet hp).2.1, expected_cons, map_some,
      toList_some, hbytes, hname, SharedIn.kept_of_not_valid rfl, nil_append]
    congr 1
    exact if_congr ⟨fun h => congrArg some h.symm, fun h => (some.inj h).symm⟩ rfl rfl
  | keep p ctx hholds hp hname =>
    have hat : ¬sh.atEnd env = true := by
      rw [SharedIn.atEnd, hp]
      exact Bool.false_ne_true
    rw [if_neg (not_or.mpr ⟨hholds, hat⟩), (hread.of_packet hp).2.1, expected_cons, map_none,
      toList_none, ite_self, nil_append]
    congr 1
    exact if_congr ⟨fun h => h.2, fun h => ⟨rfl, h⟩⟩ rfl rfl

theorem NextpktsCase.inv (h : NextpktsCase env name sh pkt sh') (hread : Readable env sh.ctx)
    (heof : sh.eof = true → unread env sh.ctx = []) :
    Readable env sh'.ctx ∧ (sh'.eof = true → unread env sh'.ctx = []) := by
  have hpacket : ∀ p ctx, pcapJokerCtxRead env sh.ctx = some (.packet p, ctx) →
      Readable env ctx ∧ (sh.eof = true → unread env ctx = []) := by
    intro p ctx hp
    obtain ⟨-, hunread, hread'⟩ := hread.of_packet hp
    exact ⟨hread', fun h => nomatch hunread.symm.trans (heof h)⟩
  cases h with
  | buffered pkt hholds hbytes => exact ⟨hread, heof⟩
  | eof ctx hholds hend => exact ⟨(Readable.of_eof hend).2.2, fun _ => (Readable.of_eof hend).2.1⟩
  | read pkt p ctx hholds hp hname hbytes => exact hpacket p ctx hp
  | keep p ctx hholds hp hname => exact hpacket p ctx hp

theorem NextpktsCase.eof_of_eof (h : NextpktsCase env name sh pkt sh') (heof : sh.eof = true) :
    sh'.eof = true := by
  cases h with
  | eof => rfl
  | _ => exact heof

/-- Nothing is put in the buffer if no packets are left. -/
theorem NextpktsCase.holds_of_nil (h : NextpktsCase env name sh pkt sh')
    (hread : Readable env sh.ctx) (hnil : unread env sh.ctx = []) {name' : List UInt8}
    (hholds' : sh'.Holds name') : sh.Holds name' := by
  cases h with
  | buffered => exact nomatch hholds'.1
  | eof ctx hholds hend =>
    refine ⟨hholds'.1, ?_⟩
    have hname := hholds'.2
    unfold SharedIn.bufifname at hname ⊢
    dsimp only at hname
    cases hfreed : sh.freed with
    | false =>
      rw [hfreed] at hname
      split_ifs at hname
      exact hname
    | true =>
      rw [hfreed, Bool.true_or, if_pos rfl] at hname
      exact nomatch hname
  | read pkt p ctx hholds hp => exact nomatch hnil.symm.trans (hread.of_packet hp).2.1
  | keep p ctx hholds hp => exact nomatch hnil.symm.trans (hread.of_packet hp).2.1

end Cases

/-! ## Runs -/

/-- The file, the buffers of the queues, what each queue has been given, and whether the end of the
file has been reported to it. A queue is known by the name of its interface. -/
structure CaptureState where
  shared : SharedIn
  bufs : List UInt8 → PcapBufs
  delivered : List UInt8 → List (List UInt8)
  reported : List UInt8 → Bool

/-- A call for one of the queues. -/
inductive CaptureCall
  | nextpkts (name : List UInt8) (num : ℤ)
  | deallocateSome (name : List UInt8) (bufs : List (ℕ × ℕ))
  /-- `ldp_in_queue_eof_pcap` (ldppcap.c:302-318). -/
  | eof (name : List UInt8)

/-- The state after the queues have been opened (ldppcap.c:70-107), with the reader that
`pcap_joker_ctx_init` gives; `cur` is the empty buffer. -/
def captureInit (ctx : JokerCtx) (cur : Packet) (bufs : List UInt8 → PcapBufs) : CaptureState where
  shared := ⟨false, cur, false, false, ctx⟩
  bufs := bufs
  delivered := fun _ => []
  reported := fun _ => false

section Delivery

variable (env : JokerEnv) (left : SharedIn) (names : List (List UInt8)) (file : List Packet)

/-- A step: `none` if the call aborts or its behaviour is undefined. -/
def captureStep (s : CaptureState) : CaptureCall → Option CaptureState
  | .nextpkts name num =>
    (nextpktsTsPcap env left (some name) (s.bufs name) s.shared num).map fun c =>
      { s with
        shared := c.shared, bufs := update s.bufs name c.bufs,
        delivered := update s.delivered name
          (s.delivered name ++ (c.pkt.map LdpPacket.bytes).toList) }
  | .deallocateSome name bufs =>
    some { s with
      bufs := update s.bufs name
        ⟨deallocateSome (s.bufs name).ring bufs, (s.bufs name).capacity⟩ }
  | .eof name =>
    some { s with reported := update s.reported name (s.reported name || s.shared.eof) }

/-- Calls of `nextpkts` are for one of the queues, ask for a packet, and find a free buffer. -/
def CaptureAllowed (s : CaptureState) : CaptureCall → Prop
  | .nextpkts name num =>
    name ∈ names ∧ 1 ≤ num ∧ (s.bufs name).ring.cap ≤ intMax ∧ 1 < (s.bufs name).ring.count
  | _ => True

instance (s : CaptureState) : ∀ a, Decidable (CaptureAllowed names s a)
  | .nextpkts _ _ => inferInstanceAs (Decidable (_ ∧ _))
  | .deallocateSome _ _ => isTrue trivial
  | .eof _ => isTrue trivial

/-- The end of the file has been reported to all queues. -/
def CaptureState.AllReported (s : CaptureState) : Prop := ∀ name ∈ names, s.reported name = true

instance (s : CaptureState) : Decidable (s.AllReported names) :=
  inferInstanceAs (Decidable (∀ name ∈ names, _))

/-- Each queue has been given the packets with its name, once and in the order of the file. -/
def CaptureState.AllDelivered (s : CaptureState) : Prop :=
  ∀ name ∈ names, s.delivered name = expected file name

/-- If the buffer holds a packet for another queue, a call for the queue `name` reads neither a
packet nor the header of a new section. -/
def SharedIn.Spares (sh : SharedIn) (name : List UInt8) : Prop :=
  ∀ name' ∈ names, sh.Holds name' → name' ≠ name → sh.atEnd env = true

/-- No packet is lost: a call of `nextpkts` does not overwrite a packet in the buffer that is for
another queue, does not read the header of a new section meanwhile, which frees the name of the
packet, and does not compare a name that has been freed; and when the last report of the end of the
file is made, the buffer does not hold a packet for a queue. -/
def CaptureSafe (s : CaptureState) : CaptureCall → Prop
  | .nextpkts name _ => ¬s.shared.Dangles ∧ s.shared.Spares env names name
  | .deallocateSome _ _ => True
  | .eof name =>
    s.shared.eof = true → (∀ name' ∈ names, name' ≠ name → s.reported name' = true) →
      ∀ name' ∈ names, ¬s.shared.Holds name'

instance (sh : SharedIn) (name : List UInt8) : Decidable (sh.Spares env names name) :=
  inferInstanceAs (Decidable (∀ name' ∈ names, _))

instance (s : CaptureState) : ∀ a, Decidable (CaptureSafe env names s a)
  | .nextpkts _ _ => inferInstanceAs (Decidable (_ ∧ _))
  | .deallocateSome _ _ => isTrue trivial
  | .eof _ => inferInstanceAs (Decidable (_ → _ → _))

/-- The packets that a queue has been given or can still be given. -/
noncomputable def CaptureState.total (s : CaptureState) (name : List UInt8) : List (List UInt8) :=
  s.delivered name ++ s.shared.toDeliver env name

/-- The rest of the file can be read, nothing is left when the end of the file has been reached, and
it is reported after that. -/
structure CaptureInv (s : CaptureState) : Prop where
  readable : Readable env s.shared.ctx
  eof : s.shared.eof = true → unread env s.shared.ctx = []
  reported : ∀ name, s.reported name = true → s.shared.eof = true

variable {env left names file} {s s' : CaptureState} {a : CaptureCall} {name : List UInt8}

theorem captureStep_nextpkts {num : ℤ} (hinv : CaptureInv env s)
    (ha : CaptureAllowed names s (.nextpkts name num)) :
    s.shared.Dangles ∧ captureStep env left s (.nextpkts name num) = none ∨
      ¬s.shared.Dangles ∧ ∃ s' pkt, captureStep env left s (.nextpkts name num) = some s' ∧
        NextpktsCase env name s.shared pkt s'.shared ∧ s'.reported = s.reported ∧
        s'.delivered = update s.delivered name
          (s.delivered name ++ (pkt.map LdpPacket.bytes).toList) := by
  obtain ⟨-, hnum, hcap, hfree⟩ := ha
  rw [captureStep]
  rcases @nextpktsTsPcap_cases env left name _ _ _ hcap hfree hnum hinv.readable with
    ⟨hdangles, hnone⟩ | ⟨hdangles, c, hc, hcase⟩
  · rw [hnone]
    exact .inl ⟨hdangles, rfl⟩
  · rw [hc]
    exact .inr ⟨hdangles, _, c.pkt, rfl, hcase, rfl, rfl⟩

theorem total_nextpkts {pkt : Option LdpPacket} (hinv : CaptureInv env s)
    (hcase : NextpktsCase env name s.shared pkt s'.shared)
    (hdelivered : s'.delivered = update s.delivered name
      (s.delivered name ++ (pkt.map LdpPacket.bytes).toList)) (name' : List UInt8) :
    s'.total env name' = s.delivered name' ++
      if s.shared.Holds name ∨ s.shared.atEnd env = true then s.shared.toDeliver env name'
      else expected (unread env s.shared.ctx) name' := by
  rw [CaptureState.total, hdelivered, ← hcase.total hinv.readable name', ← append_assoc]
  congr 1
  by_cases heq : name' = name
  · rw [heq, update_self, if_pos rfl]
  · rw [update_of_ne heq, if_neg heq, append_nil]

/-- A packet for a queue is lost exactly if it is in the buffer and the call does not spare it. -/
theorem total_nextpkts_iff {pkt : Option LdpPacket} (hinv : CaptureInv env s)
    (hcase : NextpktsCase env name s.shared pkt s'.shared)
    (hdelivered : s'.delivered = update s.delivered name
      (s.delivered name ++ (pkt.map LdpPacket.bytes).toList)) :
    (∀ name' ∈ names, s'.total env name' = s.total env name') ↔ s.shared.Spares env names name := by
  have htotal := total_nextpkts hinv hcase hdelivered
  constructor
  · intro h name' hname' hholds hne
    by_contra hat
    have hcond : ¬(s.shared.Holds name ∨ s.shared.atEnd env = true) :=
      not_or.mpr ⟨fun h => hne (some.inj (hholds.2.symm.trans h.2)), hat⟩
    have hlost := h name' hname'
    rw [htotal, if_neg hcond, CaptureState.total, SharedIn.toDeliver, SharedIn.kept,
      if_pos hholds] at hlost
    simpa using congrArg length hlost
  · intro h name' hname'
    rw [htotal, CaptureState.total]
    by_cases hcond : s.shared.Holds name ∨ s.shared.atEnd env = true
    · rw [if_pos hcond]
    · obtain ⟨hholds, hat⟩ := not_or.mp hcond
      have hkept : ¬s.shared.Holds name' :=
        fun h' => hat (h name' hname' h' fun heq => hholds (heq ▸ h'))
      rw [if_neg hcond, SharedIn.toDeliver, SharedIn.kept_of_not_holds hkept, nil_append]

theorem CaptureInv.step (hinv : CaptureInv env s) (ha : CaptureAllowed names s a)
    (hs : captureStep env left s a = some s') :
    CaptureInv env s' ∧ ∀ name, (s'.total env name).Sublist (s.total env name) := by
  cases a with
  | nextpkts name num =>
    rcases captureStep_nextpkts hinv ha with ⟨-, hnone⟩ | ⟨-, s'', pkt, hs'', hcase, hreported,
      hdelivered⟩
    · exact nomatch hnone.symm.trans hs
    obtain rfl := some.inj (hs''.symm.trans hs)
    obtain ⟨hreadable, heof⟩ := hcase.inv hinv.readable hinv.eof
    refine ⟨⟨hreadable, heof, fun name' hname' => ?_⟩, fun name' => ?_⟩
    · rw [hreported] at hname'
      exact hcase.eof_of_eof (hinv.reported name' hname')
    · rw [total_nextpkts hinv hcase hdelivered, CaptureState.total]
      apply List.Sublist.append_left
      split_ifs
      · exact List.Sublist.refl _
      · exact sublist_append_right _ _
  | deallocateSome name bufs =>
    obtain rfl := some.inj hs
    exact ⟨⟨hinv.readable, hinv.eof, hinv.reported⟩, fun name => List.Sublist.refl _⟩
  | eof name =>
    obtain rfl := some.inj hs
    refine ⟨⟨hinv.readable, hinv.eof, fun name' hname' => ?_⟩, fun name => List.Sublist.refl _⟩
    replace hname' : update s.reported name (s.reported name || s.shared.eof) name' = true := hname'
    by_cases heq : name' = name
    · rw [heq, update_self, Bool.or_eq_true] at hname'
      exact hname'.elim (hinv.reported name) id
    · rw [update_of_ne heq] at hname'
      exact hinv.reported name' hname'

/-- In a whole run no packets are added to what a queue can be given. -/
theorem CaptureInv.run {calls : List CaptureCall} (hinv : CaptureInv env s)
    (hallowed : Along (captureStep env left) (CaptureAllowed names) s calls)
    (hrun : run (captureStep env left) s calls = some s') :
    CaptureInv env s' ∧ ∀ name, (s'.total env name).Sublist (s.total env name) := by
  have hstep : ∀ t a t', CaptureInv env t ∧
    (∀ name, (t.total env name).Sublist (s.total env name)) →
      CaptureAllowed names t a → captureStep env left t a = some t' →
      CaptureInv env t' ∧ ∀ name, (t'.total env name).Sublist (s.total env name) := by
    intro t a t' ht ha hstep
    obtain ⟨hinv', hsub⟩ := ht.1.step ha hstep
    exact ⟨hinv', fun name => (hsub name).trans (ht.2 name)⟩
  exact Along.invariant (P := fun t => CaptureInv env t ∧
    ∀ name, (t.total env name).Sublist (s.total env name))
    hstep hallowed hrun ⟨hinv, fun name => List.Sublist.refl _⟩

/-- Nothing has been lost, and what is in the buffer is not left there. -/
structure NothingLost (env : JokerEnv) (names : List (List UInt8)) (file : List Packet)
    (s : CaptureState) : Prop where
  total : ∀ name ∈ names, s.total env name = expected file name
  held : s.AllReported names → ∀ name ∈ names, ¬s.shared.Holds name

theorem NothingLost.step (hinv : CaptureInv env s) (h : NothingLost env names file s)
    (ha : CaptureAllowed names s a) :
    captureStep env left s a = none ∧ ¬CaptureSafe env names s a ∨
      ∃ s', captureStep env left s a = some s' ∧ CaptureInv env s' ∧
        (NothingLost env names file s' ↔ CaptureSafe env names s a) := by
  cases a with
  | nextpkts name num =>
    rcases captureStep_nextpkts hinv ha with
      ⟨hdangles, hnone⟩ | ⟨hdangles, s', pkt, hs', hcase, hreported, hdelivered⟩
    · exact .inl ⟨hnone, fun hsafe => hsafe.1 hdangles⟩
    refine .inr ⟨s', hs', (hinv.step ha hs').1, ?_⟩
    have htotal : (∀ name ∈ names, s'.total env name = expected file name) ↔
        s.shared.Spares env names name := by
      rw [← total_nextpkts_iff hinv hcase hdelivered]
      exact forall₂_congr fun name hname => by rw [h.total name hname]
    -- once the end of the file has been reported, nothing is put in the buffer
    have hheld : s'.AllReported names → ∀ name ∈ names, ¬s'.shared.Holds name := by
      intro hall name' hname' hholds
      have hall' : s.AllReported names := fun name' hname' => hreported ▸ hall name' hname'
      have hnil := hinv.eof (hinv.reported _ (hall' _ hname'))
      exact h.held hall' name' hname' (hcase.holds_of_nil hinv.readable hnil hholds)
    exact ⟨fun h => ⟨hdangles, htotal.mp h.total⟩, fun h => ⟨htotal.mpr h.2, hheld⟩⟩
  | deallocateSome name bufs =>
    have hs' : captureStep env left s (.deallocateSome name bufs) = some _ := rfl
    exact .inr ⟨_, hs', (hinv.step ha hs').1, iff_of_true ⟨h.total, h.held⟩ trivial⟩
  | eof name =>
    have hs' : captureStep env left s (.eof name) = some _ := rfl
    refine .inr ⟨_, hs', (hinv.step ha hs').1, ?_⟩
    constructor
    · intro h' heof hothers
      apply h'.held
      intro name' hname'
      show update s.reported name (s.reported name || s.shared.eof) name' = true
      by_cases heq : name' = name
      · rw [heq, update_self, heof, Bool.or_true]
      · rw [update_of_ne heq]
        exact hothers name' hname' heq
    · intro hsafe
      refine ⟨h.total, fun hall name' hname' => ?_⟩
      refine hsafe ((hinv.step ha hs').1.reported _ (hall _ hname'))
        (fun name'' hname'' hne => ?_) name' hname'
      rw [← hall name'' hname'']
      exact (update_of_ne hne _ _).symm

end Delivery

/-- The end of the file is reported to all queues in the end of a run, unless its behaviour is
undefined. Then the behaviour is defined and each queue has been given its packets whenever the end
has been reported to all, exactly if no call overwrites a packet in the buffer or has its name
freed, none compares a freed name, and the buffer is empty when the last report is made. -/
theorem capture_delivery_iff (env : JokerEnv) (left : SharedIn) (names : List (List UInt8))
    (ctx : JokerCtx) (file : List Packet) (hreads : reads env ctx file = true)
    (hnames : ∀ p ∈ file, p.ifname ≠ none) (cur : Packet) (bufs : List UInt8 → PcapBufs)
    (calls : List CaptureCall)
    (hallowed : Along (captureStep env left) (CaptureAllowed names)
      (captureInit ctx cur bufs) calls)
    (hend : ∀ s, run (captureStep env left) (captureInit ctx cur bufs) calls = some s →
      s.AllReported names) :
    (∀ calls', calls' <+: calls →
        ∃ s, run (captureStep env left) (captureInit ctx cur bufs) calls' = some s ∧
          (s.AllReported names → s.AllDelivered names file)) ↔
      Along (captureStep env left) (CaptureSafe env names) (captureInit ctx cur bufs) calls := by
  have hinv : CaptureInv env (captureInit ctx cur bufs) :=
    ⟨⟨file, hreads, hnames⟩, (fun h => nomatch h), fun name h => nomatch h⟩
  have hinit : ∀ name, (captureInit ctx cur bufs).total env name = expected file name := by
    intro name
    rw [CaptureState.total, SharedIn.toDeliver, SharedIn.kept_of_not_valid rfl]
    exact congrArg (expected · name) (unread_eq hreads)
  have hlost : NothingLost env names file (captureInit ctx cur bufs) :=
    ⟨fun name _ => hinit name, fun _ name _ h => nomatch h.1⟩
  rw [← Along.forall_iff (fun s a hP hQ ha => NothingLost.step hP hQ ha) hallowed hinv hlost]
  constructor
  · -- what is missing at some time is missing in the end
    intro hdelivered calls' hcalls
    obtain ⟨s', hrun', hdelivered'⟩ := hdelivered calls' hcalls
    obtain ⟨s, hrun, hall⟩ := hdelivered calls (prefix_refl _)
    replace hall := hall (hend s hrun)
    obtain ⟨rest, rfl⟩ := hcalls
    obtain ⟨hbefore, hafter⟩ := hallowed.of_append
    obtain ⟨hinv', hsub'⟩ := hinv.run hbefore hrun'
    rw [run_append, hrun'] at hrun
    obtain ⟨-, hsub⟩ := hinv'.run (hafter s' hrun') hrun
    have htotal : ∀ name ∈ names, s'.total env name = expected file name := by
      intro name hname
      have hsup : (expected file name).Sublist (s.total env name) := by
        rw [← hall name hname]
        exact sublist_append_left _ _
      have hsub'' := hsub' name
      rw [hinit] at hsub''
      exact hsub''.antisymm (hsup.trans (hsub name))
    refine ⟨s', hrun', htotal, fun hall' name hname hholds => ?_⟩
    have hrest := (htotal name hname).trans (hdelivered' hall' name hname).symm
    rw [CaptureState.total, SharedIn.toDeliver, SharedIn.kept, if_pos hholds] at hrest
    simpa using congrArg length hrest
  · intro hlost calls' hcalls
    obtain ⟨s', hrun', htotal, hheld⟩ := hlost calls' hcalls
    refine ⟨s', hrun', fun hall' name hname => ?_⟩
    obtain ⟨rest, rfl⟩ := hcalls
    obtain ⟨hinv', -⟩ := hinv.run hallowed.of_append.1 hrun'
    have hnil := hinv'.eof (hinv'.reported name (hall' name hname))
    have := htotal name hname
    rw [CaptureState.total, SharedIn.toDeliver, SharedIn.kept_of_not_holds (hheld hall' name hname),
      hnil] at this
    rw [← this]
    exact (append_nil _).symm

/-! ## Two queues -/

/-- A pcapng file with the packet `[10]` of the interface `[1]`. -/
def firstPacket : Option OutCtx := outCtxWrite .little length (outCtxInit .little) [10] 1 0 [1]

/-- The packet `[20]` of the interface `[2]` follows. -/
def sampleFile : List UInt8 :=
  ((firstPacket.bind fun ctx => outCtxWrite .little length ctx [20] 2 0 [2]).map OutCtx.f).getD
    []

/-- The packets of the file. -/
def samplePackets : List Packet := [⟨[10], 1, 1, 1, some [1]⟩, ⟨[20], 1, 1, 2, some [2]⟩]

def sampleEnv : JokerEnv := ⟨.little, fun _ _ => ⟨none, 0, 0, 0, 0⟩, fun ts _ => ts⟩

/-- A file after it has been opened. -/
def sampleCtx (f : List UInt8) :
    JokerCtx := .ng (inCtxInit f 0 (fun _ => ⟨none, 0, 0, 0, 0⟩) ⟨true, 0⟩)

/-- Queues with 8 buffers each. -/
def sampleCapture (f : List UInt8) : CaptureState :=
  captureInit (sampleCtx f) ⟨[], 0, 0, 0, none⟩ fun _ => ⟨.full 8 (by decide) fun i => (i, 0),
    fun _ => 0⟩

def sampleStep : CaptureState → CaptureCall → Option CaptureState :=
  captureStep sampleEnv (sampleCapture []).shared

/-- The queues are polled in the order of the packets. -/
def inTurn :
    List CaptureCall := [.nextpkts [1] 1, .nextpkts [2] 1, .nextpkts [1] 1, .eof [1], .eof [2]]

theorem capture_delivery_in_turn :
    reads sampleEnv (sampleCtx sampleFile) samplePackets = true ∧
      (∀ p ∈ samplePackets, p.ifname ≠ none) ∧
      Along sampleStep (CaptureAllowed [[1], [2]]) (sampleCapture sampleFile) inTurn ∧
      ∃ s, run sampleStep (sampleCapture sampleFile) inTurn = some s ∧ s.AllReported [[1], [2]] ∧
        s.AllDelivered [[1], [2]] samplePackets := by
  have hreads : reads sampleEnv (sampleCtx sampleFile) samplePackets = true := by decide +kernel
  have hnames : ∀ p ∈ samplePackets, p.ifname ≠ none := by decide
  have hallowed : Along sampleStep (CaptureAllowed [[1], [2]])
    (sampleCapture sampleFile) inTurn := by
    decide +kernel
  have hend : ∀ s, run sampleStep (sampleCapture sampleFile) inTurn = some s →
    s.AllReported [[1], [2]] := by
    have hall : ((run sampleStep (sampleCapture sampleFile) inTurn).all fun s =>
        decide (s.AllReported [[1], [2]])) = true := by decide +kernel
    intro s hs
    rw [hs] at hall
    exact of_decide_eq_true hall
  obtain ⟨s, hrun, hdelivered⟩ :=
    (capture_delivery_iff sampleEnv _ [[1], [2]] _ samplePackets hreads hnames _ _
    inTurn hallowed hend).mpr (by decide +kernel) inTurn (prefix_refl _)
  exact ⟨hreads, hnames, hallowed, s, hrun, hend s hrun, hdelivered (hend s hrun)⟩

/-- The queue `[2]` is polled twice: the packet for the queue `[1]` is put in the buffer and
overwritten. -/
def outOfTurn : List CaptureCall :=
  [.nextpkts [2] 1, .nextpkts [2] 1, .nextpkts [1] 1, .eof [1], .eof [2]]

theorem buffered_packet_overwritten :
    reads sampleEnv (sampleCtx sampleFile) samplePackets = true ∧
      Along sampleStep (CaptureAllowed [[1], [2]]) (sampleCapture sampleFile) outOfTurn ∧
      ∃ s, run sampleStep (sampleCapture sampleFile) outOfTurn = some s ∧ s.AllReported [[1], [2]] ∧
        s.delivered [1] = [] ∧ ¬s.AllDelivered [[1], [2]] samplePackets := by
  refine ⟨by decide +kernel, by decide +kernel, ?_⟩
  have hrun : ((run sampleStep (sampleCapture sampleFile) outOfTurn).any fun s =>
      decide (s.AllReported [[1], [2]] ∧ s.delivered [1] = [])) = true := by decide +kernel
  obtain ⟨s, hs, h⟩ := (any_eq_true _ _).mp hrun
  obtain ⟨hall, hnothing⟩ := of_decide_eq_true h
  refine ⟨s, hs, hall, hnothing, fun hdelivered => ?_⟩
  have hfirst := hdelivered [1] mem_cons_self
  rw [hnothing] at hfirst
  exact absurd hfirst (by decide)

/-- A new section behind the packet for the queue `[1]`, which is in the buffer: its name is freed,
and comparing it is undefined. -/
example : (run sampleStep
  (sampleCapture ((firstPacket.map OutCtx.f).getD [] ++ (outCtxInit .little).f))
    [.nextpkts [2] 1, .nextpkts [2] 1, .nextpkts [1] 1]).isNone = true := by
  decide +kernel

end Pptk.Ldp
