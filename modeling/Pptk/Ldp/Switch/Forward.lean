import Pptk.Ldp.Switch.Table

/-!
# Forwarding

Model of the loop of `thrfn` (ldp/ldpswitch.c:210-321) for one thread. In every round the table is
timed out, and then the frames of every interface are received, learned from and put into the arrays
of the interfaces that they go out on.

* What is received, the times and what `malloc` returns are arguments.
* A frame is known by its number: the frames are numbered in the order of their arrival, over all
  interfaces.
* The state also holds what was handed to `ldp_out_inject` of every interface, and the frames that
  were handled, each with what the table had when it was forwarded.

Main result: `forwarding_rule_iff`.
-/

namespace Pptk.Ldp.Switch

open Pptk.Lib List

/-! ## State -/

/-- `struct ldp_packet`: the size and the bytes. -/
structure Frame where
  sz : ℕ
  data : Mem

/-- `ether_dst` (iphdr.h:379-383). -/
def Frame.dst (f : Frame) : Mac := fun i => f.data i

/-- `ether_src` (iphdr.h:385-389). -/
def Frame.src (f : Frame) : Mac := fun i => f.data (6 + i)

/-- A frame that was received, and what `malloc` returns if it is called for it. -/
structure Received where
  frame : Frame
  malloc : Option Malloc

/-- What `ldp_in_nextpkts` returns for the 256 places of `pkt_tbl`, and the time before it. -/
structure Batch where
  time64 : UInt64
  received : List Received
  length_le : received.length ≤ 256

/-- One round: the time of `time_out`, and what is received on every interface. -/
structure Round where
  now : UInt64
  batch : ℕ → Batch

/-- A frame that was handled: its interface, and what was learned when it was forwarded. -/
structure Handled where
  intf : ℕ
  frame : Frame
  records : List Record

/-- The state of the thread: the table, `last_mac`, the rows of `pktout_tbl` up to `numout`, what
was handed to `ldp_out_inject`, and the frames that were handled. -/
structure Thr where
  table : Table
  lastMac : Mac
  pktout : ℕ → List ℕ
  sent : ℕ → List ℕ
  log : List Handled

/-- The table is empty (ldpswitch.c:330, 360). -/
def Thr.init (lastMac : Mac) : Thr := ⟨Table.init, lastMac, fun _ => [], fun _ => [], []⟩

/-! ## The loop -/

section Code

variable (c : Config) (num : ℕ)

/-- `pktout_tbl[k][numout[k]++] = pkt_tbl[j]` (ldpswitch.c:302, 308). -/
def Thr.push (no k : ℕ) (s : Thr) : Option Thr :=
  if k < num ∧ (s.pktout k).length < 256 then
    some { s with pktout := Function.update s.pktout k (s.pktout k ++ [no]) }
  else none

/-- The loop over the other interfaces (ldpswitch.c:298-304). -/
def Thr.flood (no i : ℕ) : List ℕ → Thr → Option Thr
  | [], s => some s
  | k :: ks, s => if k ≠ i then (s.push num no k).bind (Thr.flood no i ks) else Thr.flood no i ks s

/-- The source address is learned (ldpswitch.c:281-289). -/
def Thr.learnSource (i : ℕ) (time64 : UInt64) (s : Thr) (r : Received) : Option Thr :=
  if r.frame.src.bytes 0 &&& 1 = 0 then
    if fastMacEquals c.endian r.frame.src s.lastMac then some s
    else (s.table.portPut c r.frame.src i time64 r.malloc).map fun q =>
      { s with table := q.1, lastMac := r.frame.src }
  else some s

/-- The port of a frame: the source address is learned and the destination is looked up
(ldpswitch.c:278-295). -/
def Thr.lookup (i : ℕ) (time64 : UInt64) (s : Thr) (r : Received) : Option (Thr × ℤ) :=
  if r.frame.sz ≥ 12 then
    (s.learnSource c i time64 r).bind fun s => (s.table.portGet c r.frame.dst).map fun port =>
      (s, port)
  else some (s, -1)

/-- One frame (ldpswitch.c:276-310). -/
def Thr.frame (i : ℕ) (time64 : UInt64) (s : Thr) (r : Received) : Option Thr :=
  (s.lookup c i time64 r).bind fun q =>
    let s : Thr := { q.1 with log := q.1.log ++ [⟨i, r.frame, q.1.table.records⟩] }
    if q.2 = -1 then s.flood num q.1.log.length i (range num)
    else if 0 ≤ q.2 then s.push num q.1.log.length q.2.toNat
    else none

/-- The frames are handed to the interfaces (ldpswitch.c:311-318). -/
def Thr.inject (s : Thr) : Thr :=
  { s with sent := fun k => s.sent k ++ s.pktout k, pktout := fun _ => [] }

/-- What was received on one interface (ldpswitch.c:266-320). -/
def Thr.batch (i : ℕ) (s : Thr) (b : Batch) : Option Thr :=
  (run (Thr.frame c num i b.time64) { s with lastMac := fun j => if (j : ℕ) = 0 then 1 else 0 }
    b.received).map
    Thr.inject

/-- One round (ldpswitch.c:251-321). -/
def Thr.round (s : Thr) (r : Round) : Option Thr :=
  (s.table.timeOut r.now).bind fun q =>
    run (fun s i => s.batch c num i (r.batch i)) { s with table := q.1 } (range num)

end Code

/-! ## What should happen -/

/-- The interface that was learned for the destination of the frame, if it has one. -/
def Handled.known (h : Handled) : Option ℤ :=
  if 6 ≤ h.frame.sz then portOf h.records h.frame.dst else none

/-- The frame with the number `m` is queued at most once for every interface, not for the one that
it came from, and otherwise for the interface of its destination, or for all if that is not known.
-/
def Forwarded (num : ℕ) (sent : ℕ → List ℕ) (m : ℕ) (h : Handled) : Prop :=
  (∀ k, (sent k).count m ≤ 1) ∧ m ∉ sent h.intf ∧
    match h.known with
    | some p => ∀ k, k ≠ h.intf → (m ∈ sent k ↔ (k : ℤ) = p)
    | none => ∀ k, k ≠ h.intf → (m ∈ sent k ↔ k < num)

/-- The destination of a frame was not learned on the interface that the frame came from. If the
frame is too short to have a source, its destination is not known, or there is no third interface.
-/
def Handled.Allowed (num : ℕ) (h : Handled) : Prop :=
  if 12 ≤ h.frame.sz then h.known ≠ some (h.intf : ℤ)
  else ∀ p ∈ h.known, ∀ k < num, k ≠ h.intf → (k : ℤ) = p

/-- What happens to the table, the frames with their interface, the time and whether `malloc`
succeeds. -/
inductive Event
  | expire (now : UInt64)
  | frame (i : ℕ) (time64 : UInt64) (f : Frame) (memory : Bool)

/-- There is memory. -/
def Event.memory : Event → Bool
  | .expire _ => true
  | .frame _ _ _ memory => memory

/-- The frame that arrives. -/
def Event.arrival : Event → Option (ℕ × Frame)
  | .expire _ => none
  | .frame i _ f _ => some (i, f)

/-- What is learned from a frame, when there is memory, without the shortcut for repeated sources.
-/
def learnFrame (cap : ℕ) (l : List Record) (i : ℕ) (time64 : UInt64) (f : Frame) : List Record :=
  if 12 ≤ f.sz ∧ f.src.bytes 0 &&& 1 = 0 then (learn cap l ⟨f.src, i, time64⟩ true).1 else l

/-- The records after an event. -/
def afterEvent (cap : ℕ) (l : List Record) : Event → List Record
  | .expire now => (expire l now).1
  | .frame i time64 f _ => learnFrame cap l i time64 f

/-- The frames, each with what was learned up to it. -/
def handledOf (cap : ℕ) : List Record → List Event → List Handled
  | _, [] => []
  | l, .expire now :: es => handledOf cap (expire l now).1 es
  | l, .frame i time64 f _ :: es =>
    ⟨i, f, learnFrame cap l i time64 f⟩ :: handledOf cap (learnFrame cap l i time64 f) es

/-- The events of a batch. -/
def Batch.events (b : Batch) (i : ℕ) : List Event :=
  b.received.map fun r => .frame i b.time64 r.frame r.malloc.isSome

/-- The events of a round. -/
def Round.events (num : ℕ) (r : Round) : List Event :=
  .expire r.now :: (range num).flatMap fun i => (r.batch i).events i

/-! ## One frame -/

/-- The interfaces other than `i`. -/
def others (num i : ℕ) : List ℕ := (range num).filter fun k => k ≠ i

/-- The interfaces that the code queues a frame for. -/
def Handled.targets (num : ℕ) (h : Handled) : List ℕ :=
  if 12 ≤ h.frame.sz then
    match portOf h.records h.frame.dst with
    | some p => [p.toNat]
    | none => others num h.intf
  else others num h.intf

/-- The frame `no` is put into the rows of the interfaces `ks`. -/
def Thr.enqueue (s : Thr) (no : ℕ) (ks : List ℕ) : Thr :=
  { s with pktout := fun k => if k ∈ ks then s.pktout k ++ [no] else s.pktout k }

section Step

variable {c : Config} {num : ℕ} {s : Thr} {no i : ℕ}

theorem Thr.push_spec {k : ℕ} (hk : k < num) (hlen : (s.pktout k).length < 256) :
    s.push num no k = some (s.enqueue no [k]) := by
  rw [Thr.push, if_pos ⟨hk, hlen⟩, Thr.enqueue]
  refine congrArg (fun f => some { s with pktout := f }) (funext fun k' => ?_)
  by_cases h : k' = k
  · rw [h, Function.update_self, if_pos (mem_singleton.mpr rfl)]
  · rw [Function.update_of_ne h, if_neg (mt mem_singleton.mp h)]

theorem Thr.flood_spec {ks : List ℕ} (hnd : ks.Nodup)
    (hks : ∀ k ∈ ks, k < num ∧ (s.pktout k).length < 256) :
    s.flood num no i ks = some (s.enqueue no (ks.filter fun k => k ≠ i)) := by
  induction ks generalizing s with
  | nil => rfl
  | cons k ks ih =>
    obtain ⟨hk, hnd⟩ := nodup_cons.mp hnd
    obtain ⟨hlt, hlen⟩ := hks k mem_cons_self
    rw [Thr.flood]
    by_cases hki : k ≠ i
    · have hks' : ∀ k' ∈ ks, k' < num ∧ ((s.enqueue no [k]).pktout k').length < 256 := by
        intro k' hk'
        have hne : k' ∉ [k] := fun h => hk (mem_singleton.mp h ▸ hk')
        refine ⟨(hks k' (mem_cons_of_mem _ hk')).1, ?_⟩
        simp only [Thr.enqueue, if_neg hne]
        exact (hks k' (mem_cons_of_mem _ hk')).2
      rw [if_pos hki, Thr.push_spec hlt hlen, Option.bind_some, ih hnd hks',
        filter_cons_of_pos (by simpa using hki)]
      refine congrArg (fun f => some { s with pktout := f }) (funext fun k' => ?_)
      simp only [Thr.enqueue, mem_cons, not_mem_nil, or_false]
      by_cases h : k' = k
      · subst h
        have hno : k' ∉ ks.filter fun k => k ≠ i := fun h => hk (mem_filter.mp h).1
        rw [if_neg hno, if_pos rfl, if_pos (.inl rfl)]
      · simp only [h, false_or, if_false]
    · rw [if_neg hki, ih hnd fun k' hk' => hks k' (mem_cons_of_mem _ hk'),
        filter_cons_of_neg (by simpa using hki)]

end Step

/-! ## Invariant -/

/-- The port of a record is the number of an interface. -/
def PortsBelow (num : ℕ) (l : List Record) : Prop := ∀ r ∈ l, ∃ k < num, r.port = (k : ℤ)

theorem PortsBelow.learn {num : ℕ} {l : List Record} (h : PortsBelow num l) {cap i : ℕ}
    (hi : i < num) {mac : Mac} {time64 : UInt64} {memory : Bool} :
    PortsBelow num (learn cap l ⟨mac, i, time64⟩ memory).1 := by
  intro r hr
  rcases mem_learn hr with hr | rfl
  · exact h r hr
  · exact ⟨i, hi, rfl⟩

theorem PortsBelow.portOf {num : ℕ} {l : List Record} (h : PortsBelow num l) {mac : Mac} {p : ℤ}
    (hp : portOf l mac = some p) : ∃ k < num, p = (k : ℤ) := by
  obtain ⟨r, hr, rfl⟩ := Option.map_eq_some_iff.mp hp
  exact h r (mem_of_find?_eq_some hr)

/-- The table is in order and has ports of interfaces only; every row is what was queued for its
interface, and has at most `j` frames that were not handed on. -/
structure ThrInv (c : Config) (num j : ℕ) (s : Thr) : Prop where
  table : TableInv c s.table
  port : PortsBelow num s.table.records
  queued : ∀ k, s.sent k ++ s.pktout k = (s.log.zipIdx.filter fun x => k ∈ x.1.targets num).map
    Prod.snd
  short : ∀ k, (s.pktout k).length ≤ j
  logged : ∀ x ∈ s.log, PortsBelow num x.records

section Frame

variable {c : Config} {num j i : ℕ} {s : Thr}

/-- The source that was learned last in this batch is the last record. -/
def LastLearned (i : ℕ) (time64 : UInt64) (mac : Mac) (t : Table) : Prop :=
  mac.bytes 0 &&& 1 = 0 → t.records.getLast? = some ⟨mac, i, time64⟩

theorem Thr.learnSource_spec (h : TableInv c s.table) (hp : PortsBelow num s.table.records)
    (hi : i < num) (time64 : UInt64) (r : Received) :
    ∃ t m, s.learnSource c i time64 r = some { s with table := t, lastMac := m } ∧ TableInv c t ∧
      PortsBelow num t.records ∧ (r.malloc.isSome → LastLearned i time64 s.lastMac s.table →
        LastLearned i time64 m t ∧ t.records =
          if r.frame.src.bytes 0 &&& 1 = 0 then
            (learn c.bucketcnt s.table.records ⟨r.frame.src, i, time64⟩ true).1
          else s.table.records) := by
  rw [Thr.learnSource]
  by_cases hsrc : r.frame.src.bytes 0 &&& 1 = 0
  · rw [if_pos hsrc, if_pos hsrc]
    by_cases hlast : fastMacEquals c.endian r.frame.src s.lastMac
    · refine ⟨s.table, s.lastMac, by rw [if_pos hlast], h, hp, fun _ hll => ⟨hll, ?_⟩⟩
      rw [fastMacEquals_iff.mp hlast] at hsrc ⊢
      exact (learn_of_getLast? h.nodup_records (hll hsrc)).symm
    · obtain ⟨t, hput, ht, hrec⟩ := h.portPut r.frame.src i time64 r.malloc
      refine ⟨t, r.frame.src, by rw [if_neg hlast, hput]; rfl, ht, ?_, fun hm _ => ?_⟩
      · rw [hrec]
        exact hp.learn hi
      · rw [hm] at hrec
        refine ⟨fun _ => ?_, hrec⟩
        rw [hrec]
        exact getLast?_learn _ _ _
  · rw [if_neg hsrc, if_neg hsrc]
    exact ⟨s.table, s.lastMac, rfl, h, hp, fun _ hll => ⟨hll, rfl⟩⟩

theorem Thr.lookup_spec (h : TableInv c s.table) (hp : PortsBelow num s.table.records)
    (hi : i < num) (time64 : UInt64) (r : Received) :
    ∃ t m, s.lookup c i time64 r = some ({ s with table := t, lastMac := m },
        if 12 ≤ r.frame.sz then (portOf t.records r.frame.dst).getD (-1) else -1) ∧
      TableInv c t ∧ PortsBelow num t.records ∧
      (r.malloc.isSome → LastLearned i time64 s.lastMac s.table → LastLearned i time64 m t ∧
        t.records = learnFrame c.bucketcnt s.table.records i time64 r.frame) := by
  rw [Thr.lookup]
  by_cases hsz : r.frame.sz ≥ 12
  · obtain ⟨t, m, hlearn, ht, hpt, hmem⟩ := s.learnSource_spec h hp hi time64 r
    refine ⟨t, m, ?_, ht, hpt, fun hm hll => ⟨(hmem hm hll).1, ?_⟩⟩
    · rw [if_pos hsz, hlearn, Option.bind_some, ht.portGet, if_pos hsz]
      rfl
    · rw [(hmem hm hll).2, learnFrame]
      simp only [show 12 ≤ r.frame.sz from hsz, true_and]
  · refine ⟨s.table, s.lastMac, by rw [if_neg hsz, if_neg hsz], h, hp, fun _ hll => ⟨hll, ?_⟩⟩
    rw [learnFrame, if_neg fun hand => hsz hand.1]

/-- One frame is put into the arrays that `Handled.targets` says. -/
theorem Thr.frame_spec (h : ThrInv c num j s) (hi : i < num) (hj : j < 256) (time64 : UInt64)
    (r : Received) :
    ∃ t m, s.frame c num i time64 r =
        some (Thr.enqueue { s with
          table := t, lastMac := m, log := s.log ++ [⟨i, r.frame, t.records⟩] } s.log.length
          (Handled.targets num ⟨i, r.frame, t.records⟩)) ∧
      TableInv c t ∧ PortsBelow num t.records ∧
      (r.malloc.isSome → LastLearned i time64 s.lastMac s.table → LastLearned i time64 m t ∧
        t.records = learnFrame c.bucketcnt s.table.records i time64 r.frame) := by
  obtain ⟨t, m, hlook, ht, hpt, hmem⟩ := s.lookup_spec h.table h.port hi time64 r
  refine ⟨t, m, ?_, ht, hpt, hmem⟩
  have hlen : ∀ k, (s.pktout k).length < 256 := fun k => (h.short k).trans_lt hj
  -- the loop over the interfaces
  have hflood : ∀ s' : Thr, s'.pktout = s.pktout →
      s'.flood num s.log.length i (range num) = some (s'.enqueue s.log.length (others num i)) := by
    intro s' hs'
    refine Thr.flood_spec nodup_range fun k hk => ⟨mem_range.mp hk, ?_⟩
    rw [hs']
    exact hlen k
  rw [Thr.frame, hlook, Option.bind_some, Handled.targets]
  dsimp only
  by_cases hsz : 12 ≤ r.frame.sz
  · rw [if_pos hsz, if_pos hsz]
    cases hport : Switch.portOf t.records r.frame.dst with
    | none => exact hflood _ rfl
    | some p =>
      obtain ⟨k, hk, rfl⟩ := hpt.portOf hport
      have hne : ¬(k : ℤ) = -1 := by omega
      rw [Option.getD_some, if_neg hne, if_pos (Int.natCast_nonneg k), Int.toNat_natCast]
      exact Thr.push_spec hk (hlen k)
  · rw [if_neg hsz, if_neg hsz, if_pos rfl]
    exact hflood _ rfl

theorem ThrInv.enqueue (h : ThrInv c num j s) {t : Table} {m : Mac} {f : Frame} (ht : TableInv c t)
    (hpt : PortsBelow num t.records) :
    ThrInv c num (j + 1)
      (Thr.enqueue { s with table := t, lastMac := m, log := s.log ++ [⟨i, f, t.records⟩] }
      s.log.length (Handled.targets num ⟨i, f, t.records⟩)) := by
  refine ⟨ht, hpt, fun k => ?_, fun k => ?_, fun x hx => ?_⟩
  · have hq := h.queued k
    simp only [Thr.enqueue, zipIdx_append, filter_append, map_append, ← hq]
    by_cases hk : k ∈ Handled.targets num ⟨i, f, t.records⟩
    · rw [if_pos hk]
      simp [hk]
    · rw [if_neg hk]
      simp [hk]
  · simp only [Thr.enqueue]
    have := h.short k
    split_ifs
    · rw [length_append, length_singleton]
      omega
    · omega
  · rcases mem_append.mp hx with hx | hx
    · exact h.logged x hx
    · rw [mem_singleton.mp hx]
      exact hpt

end Frame

/-! ## Runs -/

/-- What is written down about a frame without the records. -/
def Handled.arrival (h : Handled) : ℕ × Frame := (h.intf, h.frame)

/-- From `s` to `s'` the frames of the events were handled, and if there was memory, the records are
those of the events. -/
structure Follows (cap : ℕ) (es : List Event) (s s' : Thr) : Prop where
  arrivals : s'.log.map Handled.arrival = s.log.map Handled.arrival ++ es.filterMap Event.arrival
  learned : (∀ e ∈ es, e.memory) → s'.table.records = es.foldl (afterEvent cap) s.table.records ∧
    s'.log = s.log ++ handledOf cap s.table.records es

theorem handledOf_append (cap : ℕ) (l : List Record) (es fs : List Event) :
    handledOf cap l (es ++ fs) = handledOf cap l es ++ handledOf cap (es.foldl (afterEvent cap) l)
      fs := by
  induction es generalizing l with
  | nil => rfl
  | cons e es ih =>
    cases e with
    | expire now => exact ih _
    | frame i time64 f memory =>
      rw [cons_append, handledOf, handledOf, ih, cons_append]
      rfl

theorem Follows.refl (cap : ℕ) (s : Thr) : Follows cap [] s s :=
  ⟨by simp, fun _ => ⟨rfl, by simp [handledOf]⟩⟩

theorem Follows.trans {cap : ℕ} {es fs : List Event} {s1 s2 s3 : Thr} (h1 : Follows cap es s1 s2)
    (h2 : Follows cap fs s2 s3) : Follows cap (es ++ fs) s1 s3 := by
  refine ⟨?_, fun hm => ?_⟩
  · rw [h2.arrivals, h1.arrivals, append_assoc, filterMap_append]
  · obtain ⟨hr1, hl1⟩ := h1.learned fun e he => hm e (mem_append_left _ he)
    obtain ⟨hr2, hl2⟩ := h2.learned fun e he => hm e (mem_append_right _ he)
    refine ⟨by rw [hr2, hr1, foldl_append], ?_⟩
    rw [hl2, hl1, hr1, append_assoc, handledOf_append]

section Runs

variable {c : Config} {num j i : ℕ} {s : Thr}

theorem ThrInv.frames (h : ThrInv c num j s) (rs : List Received) (hi : i < num)
    (hj : j + rs.length ≤ 256) (time64 : UInt64) :
    ∃ s', run (Thr.frame c num i time64) s rs = some s' ∧ ThrInv c num (j + rs.length) s' ∧
      s'.log.map Handled.arrival = s.log.map Handled.arrival ++ rs.map (fun r => (i, r.frame)) ∧
      ((∀ r ∈ rs, r.malloc.isSome) → LastLearned i time64 s.lastMac s.table →
        s'.table.records = (rs.map fun r => Event.frame i time64 r.frame r.malloc.isSome).foldl
          (afterEvent c.bucketcnt) s.table.records ∧
        s'.log = s.log ++ handledOf c.bucketcnt s.table.records
          (rs.map fun r => .frame i time64 r.frame r.malloc.isSome)) := by
  induction rs generalizing s j with
  | nil => exact ⟨s, rfl, h, by simp, fun _ _ => ⟨rfl, by simp [handledOf]⟩⟩
  | cons r rs ih =>
    rw [length_cons] at hj
    obtain ⟨t, m, hframe, ht, hpt, hmem⟩ := Thr.frame_spec h hi (by omega) time64 r
    obtain ⟨s', hrun, h', harr, hlearned⟩ := ih (h.enqueue ht hpt) (by omega)
    refine ⟨s', ?_, ?_, ?_, fun hm hll => ?_⟩
    · rw [run, hframe, Option.bind_some, hrun]
    · rw [length_cons, Nat.add_comm rs.length, ← Nat.add_assoc]
      exact h'
    · rw [harr]
      simp [Thr.enqueue, Handled.arrival]
    · obtain ⟨hll', hrec⟩ := hmem (hm r mem_cons_self) hll
      obtain ⟨hrecs, hlog⟩ := hlearned (fun r' hr' => hm r' (mem_cons_of_mem _ hr')) hll'
      have hrec' : (Thr.enqueue { s with
        table := t, lastMac := m, log := s.log ++ [⟨i, r.frame, t.records⟩] }
          s.log.length (Handled.targets num ⟨i, r.frame, t.records⟩)).table.records =
            learnFrame c.bucketcnt s.table.records i time64 r.frame := hrec
      rw [hrec'] at hrecs hlog
      refine ⟨hrecs, ?_⟩
      rw [hlog, map_cons, handledOf]
      simp [Thr.enqueue, hrec]

theorem ThrInv.batch (h : ThrInv c num 0 s) (hi : i < num) (b : Batch) :
    ∃ s', s.batch c num i b = some s' ∧ ThrInv c num 0 s' ∧
      Follows c.bucketcnt (b.events i) s s' := by
  have h0 : ThrInv c num 0 { s with lastMac := fun j => if (j : ℕ) = 0 then 1 else 0 } :=
    ⟨h.table, h.port, h.queued, h.short, h.logged⟩
  obtain ⟨s1, hrun, h1, harr, hlearned⟩ :=
    h0.frames b.received hi (by simpa using b.length_le) b.time64
  refine ⟨s1.inject, by rw [Thr.batch, hrun]; rfl,
    ⟨h1.table, h1.port, fun k => ?_, fun _ => Nat.le_refl _, h1.logged⟩, ?_, ?_⟩
  · exact (append_nil _).trans (h1.queued k)
  · rw [Batch.events, filterMap_map]
    exact harr.trans (congrArg _ (congrFun filterMap_eq_map _).symm)
  · intro hm
    refine hlearned (fun r hr => hm _ (mem_map_of_mem hr)) fun hbit => ?_
    have hone : (1 : UInt8) &&& 1 = 0 := hbit
    exact absurd hone (by decide)

theorem ThrInv.batches (h : ThrInv c num 0 s) (r : Round) (is : List ℕ) (his : ∀ i ∈ is, i < num) :
    ∃ s', run (fun s i => s.batch c num i (r.batch i)) s is = some s' ∧ ThrInv c num 0 s' ∧
      Follows c.bucketcnt (is.flatMap fun i => (r.batch i).events i) s s' := by
  induction is generalizing s with
  | nil => exact ⟨s, rfl, h, Follows.refl _ s⟩
  | cons i is ih =>
    obtain ⟨s1, hbatch, h1, hf1⟩ := h.batch (his i mem_cons_self) (r.batch i)
    obtain ⟨s', hrun, h', hf'⟩ := ih h1 fun k hk => his k (mem_cons_of_mem _ hk)
    refine ⟨s', by rw [run, hbatch, Option.bind_some, hrun], h', ?_⟩
    rw [flatMap_cons]
    exact hf1.trans hf'

/-- A round is carried out and keeps `ThrInv`. -/
theorem ThrInv.round (h : ThrInv c num 0 s) (r : Round) :
    ∃ s', s.round c num r = some s' ∧ ThrInv c num 0 s' ∧
      Follows c.bucketcnt (r.events num) s s' := by
  obtain ⟨t, hto, ht, hrec⟩ := h.table.timeOut r.now
  have hsub : t.records.Sublist s.table.records := hrec ▸ dropWhile_sublist _
  have h1 : ThrInv c num 0 { s with table := t } :=
    ⟨ht, fun x hx => h.port x (hsub.subset hx), h.queued, h.short, h.logged⟩
  obtain ⟨s', hrun, h', hf⟩ := h1.batches r (range num) fun i hi => mem_range.mp hi
  refine ⟨s', by rw [Thr.round, hto, Option.bind_some, hrun], h', ?_⟩
  have hexpire : Follows c.bucketcnt [.expire r.now] s { s with table := t } :=
    ⟨(append_nil _).symm, fun _ => ⟨hrec, (append_nil _).symm⟩⟩
  exact hexpire.trans hf

theorem ThrInv.rounds (h : ThrInv c num 0 s) (rounds : List Round) :
    ∃ s', run (Thr.round c num) s rounds = some s' ∧ ThrInv c num 0 s' ∧
      Follows c.bucketcnt (rounds.flatMap (Round.events num)) s s' := by
  induction rounds generalizing s with
  | nil => exact ⟨s, rfl, h, Follows.refl _ s⟩
  | cons r rounds ih =>
    obtain ⟨s1, hround, h1, hf1⟩ := h.round r
    obtain ⟨s', hrun, h', hf'⟩ := ih h1
    refine ⟨s', by rw [run, hround, Option.bind_some, hrun], h', ?_⟩
    rw [flatMap_cons]
    exact hf1.trans hf'

/-! ## The rule -/

theorem ThrInv.sent_eq (h : ThrInv c num 0 s) (k : ℕ) :
    s.sent k = (s.log.zipIdx.filter fun x => k ∈ x.1.targets num).map Prod.snd := by
  have hnil : s.pktout k = [] := eq_nil_of_length_eq_zero (Nat.le_zero.mp (h.short k))
  rw [← h.queued k, hnil, append_nil]

theorem ThrInv.sent_pairwise (h : ThrInv c num 0 s) (k : ℕ) : (s.sent k).Pairwise (· < ·) := by
  rw [h.sent_eq]
  have hsub := (filter_sublist (p := fun x : Handled × ℕ => k ∈ x.1.targets num)
    (l := s.log.zipIdx)).map Prod.snd
  rw [zipIdx_map_snd] at hsub
  exact List.Pairwise.sublist hsub pairwise_lt_range'

theorem ThrInv.mem_sent (h : ThrInv c num 0 s) {m k : ℕ} {x : Handled} (hx : s.log[m]? = some x) :
    m ∈ s.sent k ↔ k ∈ x.targets num := by
  rw [h.sent_eq, mem_map]
  constructor
  · rintro ⟨⟨y, m'⟩, hy, rfl⟩
    obtain ⟨hmem, hk⟩ := mem_filter.mp hy
    rw [mem_zipIdx_iff_getElem?] at hmem
    rw [← Option.some.inj (hmem.symm.trans hx)]
    exact of_decide_eq_true hk
  · intro hk
    refine ⟨(x, m), mem_filter.mpr ⟨?_, decide_eq_true hk⟩, rfl⟩
    rw [mem_zipIdx_iff_getElem?]
    exact hx

theorem mem_others {k : ℕ} : k ∈ others num i ↔ k < num ∧ k ≠ i := by
  simp [others]

/-- A frame is forwarded as the rule says (`Forwarded`) exactly if it is allowed. -/
theorem ThrInv.forwarded_iff (h : ThrInv c num 0 s) {m : ℕ} {x : Handled}
    (hx : s.log[m]? = some x) : Forwarded num s.sent m x ↔ x.Allowed num := by
  have hcount : ∀ k, (s.sent k).count m ≤ 1 := fun k =>
    nodup_iff_count_le_one.mp ((h.sent_pairwise k).imp fun hlt => Nat.ne_of_lt hlt) m
  have hports := h.logged x (mem_of_getElem? hx)
  simp only [Forwarded, h.mem_sent hx, Handled.Allowed, Handled.targets, hcount, implies_true,
    true_and]
  by_cases hsz : 12 ≤ x.frame.sz
  · have hknown : x.known = Switch.portOf x.records x.frame.dst := if_pos (by omega)
    rw [if_pos hsz, if_pos hsz, hknown]
    cases hport : Switch.portOf x.records x.frame.dst with
    | none => simp +contextual [mem_others]
    | some p =>
      obtain ⟨k, _, rfl⟩ := hports.portOf hport
      simp only [Int.toNat_natCast, mem_singleton, ne_eq, Option.some.injEq, Int.natCast_inj]
      constructor
      · intro ⟨hne, _⟩ heq
        exact hne heq.symm
      · intro hne
        exact ⟨fun heq => hne heq.symm, fun _ _ => trivial⟩
  · rw [if_neg hsz, if_neg hsz]
    cases hknown : x.known with
    | none => simp +contextual [mem_others]
    | some p =>
      obtain ⟨k, hk, rfl⟩ : ∃ k < num, p = (k : ℤ) := by
        rw [Handled.known] at hknown
        split_ifs at hknown
        exact hports.portOf hknown
      simp only [mem_others, ne_eq, not_true_eq_false, and_false, not_false_eq_true, true_and,
        Option.mem_some_iff, forall_eq', Int.natCast_inj]
      constructor
      · intro hall k' hk' hne
        exact (hall k' hne).mp ⟨hk', hne⟩
      · intro hall k' hne
        refine ⟨fun hk' => hall k' hk'.1 hne, ?_⟩
        rintro rfl
        exact ⟨hk, hne⟩

end Runs

theorem ThrInv.init (c : Config) (num : ℕ) (lastMac : Mac) : ThrInv c num 0 (Thr.init lastMac) :=
  ⟨TableInv.init c, by simp [PortsBelow, Thr.init, Table.records, Table.init, recordsAt],
    fun _ => rfl, fun _ => Nat.le_refl _, by simp [Thr.init]⟩

/-- Every sequence of rounds is carried out. All frames that arrive are handled, in the order of
their arrival, and leave every interface in that order; if there is memory, what was learned at
every frame is what its source and those of all frames before it teach, without the shortcut for
repeated sources. A frame is forwarded as the rule says exactly if its destination was not learned
on its own interface, and, for a frame without a source, if the destination is not known or there is
no third interface. -/
theorem forwarding_rule_iff (c : Config) (num : ℕ) (lastMac : Mac) (rounds : List Round) :
    let es := rounds.flatMap (Round.events num)
    ∃ s, run (Thr.round c num) (Thr.init lastMac) rounds = some s ∧
      s.log.map Handled.arrival = es.filterMap Event.arrival ∧
      (∀ k, (s.sent k).Pairwise (· < ·)) ∧
      ((∀ e ∈ es, e.memory) → s.log = handledOf c.bucketcnt [] es) ∧
      ∀ m x, s.log[m]? = some x → (Forwarded num s.sent m x ↔ x.Allowed num) := by
  intro es
  obtain ⟨s, hrun, h, hf⟩ := (ThrInv.init c num lastMac).rounds rounds
  exact ⟨s, hrun, hf.arrivals, h.sent_pairwise, fun hm => (hf.learned hm).2,
    fun m x hx => h.forwarded_iff hx⟩

/-- A frame of 60 bytes between addresses that repeat one byte. -/
def sampleFrame (dst src : UInt8) : Received :=
  ⟨⟨60, fun i => if i < 6 then dst else src⟩, some nextMalloc⟩

/-- One interface receives a broadcast, and then a frame for the sender of the broadcast. -/
def answeredBroadcast : Round where
  now := 1
  batch := fun i => ⟨1, if i = 0 then [sampleFrame 255 2, sampleFrame 2 4] else [], by split_ifs <;>
    decide⟩

/-- The second frame goes back out of the interface that it came from. -/
theorem frame_sent_back :
    ∃ s x, run (Thr.round twoBuckets 2) (Thr.init fun _ => 0) [answeredBroadcast] = some s ∧
    s.log[1]? = some x ∧ 1 ∈ s.sent x.intf ∧ ¬Forwarded 2 s.sent 1 x := by
  have heval : (run (Thr.round twoBuckets 2) (Thr.init fun _ => 0) [answeredBroadcast]).map
      (fun s => (s.log.map Handled.intf, s.sent 0)) = some ([0, 0], [1]) := by decide
  obtain ⟨s, hrun, hs⟩ := Option.map_eq_some_iff.mp heval
  obtain ⟨hlog, hsent⟩ := Prod.mk.inj hs
  have hx : (s.log.map Handled.intf)[1]? = some 0 := by rw [hlog]; rfl
  rw [getElem?_map] at hx
  obtain ⟨x, hx, hintf⟩ := Option.map_eq_some_iff.mp hx
  have hmem : 1 ∈ s.sent x.intf := by
    rw [hintf, hsent]
    exact mem_singleton.mpr rfl
  exact ⟨s, x, hrun, hx, hmem, fun hf => hf.2.1 hmem⟩

end Pptk.Ldp.Switch
