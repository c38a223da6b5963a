import Pptk.Arp.Consistent
import Pptk.Lib.Scatter

/-!
# ARP cache: no packet is lost

A packet that was queued waits in the list of an entry, or was handed to a port, or was freed.
Without a port, `arp_cache_drain` takes the packets out of the list and forgets them.

Main results: `put_kept_iff`, `arp_packets_kept_iff` and `arp_packet_dropped`.
-/

namespace Pptk.Arp

open Timer Lib Function List

/-! ## Places -/

/-- Where a packet may be. -/
inductive Place
  | entry (a : ℕ)
  | port
  | allocator
  deriving DecidableEq

/-- The packets in a place. -/
def places (c : ArpCache) : Place → List ℕ
  | .entry a => ((c.table.entry a).map ArpEntry.list).getD []
  | .port => c.packets.handed.map Handed.pkt
  | .allocator => c.packets.freed

/-- Every packet that was queued is in exactly one place, and there once; and those that were handed
to a port had the MAC address of the entry as destination. -/
structure Kept (c : ArpCache) (events : List ArpEvent) : Prop where
  scattered : Scattered (places c) (· ∈ queued events)
  dst : ∀ x ∈ c.packets.handed, x.dst = x.mac

/-! ## Loops over the packets -/

section Loops

variable (q : ArpPackets) (mac : Mac) (list : List ℕ)

theorem drain_port : (q.drain true mac list).freed = q.freed ∧
    (q.drain true mac list).handed = q.handed ++ list.map fun pkt => ⟨pkt, mac, mac⟩ := by
  induction list generalizing q with
  | nil => simp [ArpPackets.drain]
  | cons pkt list ih =>
    rw [ArpPackets.drain]
    simp [ih]

theorem drain_no_port : (q.drain false mac list).freed = q.freed ∧
    (q.drain false mac list).handed = q.handed := by
  induction list generalizing q with
  | nil => simp [ArpPackets.drain]
  | cons pkt list ih =>
    rw [ArpPackets.drain]
    simp [ih]

theorem freeAll_eq : q.freeAll list = { q with freed := q.freed ++ list } := by
  induction list generalizing q with
  | nil => simp [ArpPackets.freeAll]
  | cons pkt list ih =>
    rw [ArpPackets.freeAll, ih]
    simp

end Loops

/-! ## Calls -/

section Calls

variable {ipHash : UInt32 → UInt32} {c c' : ArpCache} {events events' : List ArpEvent} {a : ℕ}
  {e : ArpEntry}

theorem places_entry (he : c.table.entry a = some e) : places c (.entry a) = e.list := by
  rw [places, he]
  rfl

theorem places_update {x : Option ArpEntry} (hentry : c'.table.entry = update c.table.entry a x)
    (b : ℕ) :
    places c' (.entry b) = if b = a then (x.map ArpEntry.list).getD []
      else places c (.entry b) := by
  rw [places, hentry, update_apply]
  split_ifs <;> rfl

theorem Kept.of_no_packets (h : Kept c events) (hfresh : c.table.entry a = none)
    (hlist : e.list = []) (hentry : c'.table.entry = update c.table.entry a (some e))
    (hpackets : c'.packets = c.packets) (hqueued : queued events' = queued events) :
    Kept c' events' := by
  have hplaces : places c' = places c := by
    funext p
    cases p with
    | entry b =>
      rw [places_update hentry]
      split_ifs with hb
      · rw [hb, Option.map_some, hlist, places, hfresh]
        rfl
      · rfl
    | port => rw [places, hpackets, places]
    | allocator => rw [places, hpackets, places]
  refine ⟨?_, ?_⟩
  · rw [hplaces, hqueued]
    exact h.scattered
  · rw [hpackets]
    exact h.dst

theorem Kept.scattered_of_moved (h : Kept c events) (he : c.table.entry a = some e)
    {x : Option ArpEntry} (p : Place) (moved : List ℕ)
    (hentry : c'.table.entry = update c.table.entry a x) (hp : ∀ b, p ≠ .entry b)
    (hlist : e.list = moved ++ (x.map ArpEntry.list).getD [])
    (hmoved : places c' p = places c p ++ moved)
    (hother : ∀ r, (∀ b, r ≠ .entry b) → r ≠ p → places c' r = places c r)
    (hqueued : queued events' = queued events) : Scattered (places c') (· ∈ queued events') := by
  rw [hqueued]
  refine h.scattered.redistribute (hp a).symm ?_ fun r hr hrp => ?_
  · rw [places_update hentry, if_pos rfl, places_entry he, hmoved, hlist]
    refine perm_append_comm.trans ?_
    rw [append_assoc]
    exact perm_append_comm
  · cases r with
    | entry b =>
      rw [places_update hentry, if_neg (fun hb => hr (by rw [hb]))]
    | port => exact hother _ (by simp) hrp
    | allocator => exact hother _ (by simp) hrp

/-- A put without a port must find no packets in the list of the entry. -/
def ArpCall.KeepsPackets (c : ArpCache) : ArpCall → Prop
  | .put port ip _ _ _ => port = true ∨ ∀ a e, c.table.entry a = some e → e.ip = ip → e.list = []
  | .putPacket _ _ _ _ => True
  | .expire _ => True

theorem Kept.drain_port (h : Kept c events) (he : c.table.entry a = some e) {mac : Mac}
    (hentry : c'.table.entry = update c.table.entry a
      (some { e with mac := mac, valid := true, list := [] }))
    (hpackets : c'.packets = c.packets.drain true mac e.list)
    (hqueued : queued events' = queued events) : Kept c' events' := by
  obtain ⟨hfreed, hhanded⟩ := Arp.drain_port c.packets mac e.list
  constructor
  · refine h.scattered_of_moved he .port e.list hentry (by simp) (by simp) ?_ ?_ hqueued
    · rw [places, hpackets, hhanded, map_append, map_map, places]
      congr 1
      exact map_id _
    · intro r hr hport
      cases r with
      | entry b => exact absurd rfl (hr b)
      | port => exact absurd rfl hport
      | allocator => rw [places, hpackets, hfreed, places]
  · intro x hx
    rw [hpackets, hhanded, mem_append] at hx
    rcases hx with hx | hx
    · exact h.dst x hx
    · obtain ⟨pkt, -, rfl⟩ := mem_map.mp hx
      rfl

/-- The entry is drained without a port: its packets are in no place any more. -/
theorem Kept.drain_no_port_iff (h : Kept c events) (he : c.table.entry a = some e) {mac : Mac}
    (hentry : c'.table.entry = update c.table.entry a
      (some { e with mac := mac, valid := true, list := [] }))
    (hpackets : c'.packets = c.packets.drain false mac e.list)
    (hqueued : queued events' = queued events) : Kept c' events' ↔ e.list = [] := by
  obtain ⟨hfreed, hhanded⟩ := drain_no_port c.packets mac e.list
  have hrest : ∀ r, (∀ b, r ≠ .entry b) → places c' r = places c r := by
    intro r hr
    cases r with
    | entry b => exact absurd rfl (hr b)
    | port => rw [places, hpackets, hhanded, places]
    | allocator => rw [places, hpackets, hfreed, places]
  constructor
  · intro h'
    by_contra hne
    obtain ⟨pkt, hpkt⟩ := exists_mem_of_ne_nil _ hne
    have hin : pkt ∈ places c (.entry a) := by
      rw [places_entry he]
      exact hpkt
    have hlive : pkt ∈ queued events := (h.scattered.live_iff pkt).mpr ⟨_, hin⟩
    refine not_scattered (b := pkt) ?_ (fun r hr => ?_) h'.scattered
    · rw [hqueued]
      exact hlive
    · -- it was in the list only, which is empty now
      cases r with
      | entry b =>
        rw [places_update hentry] at hr
        split_ifs at hr with hb
        · simp at hr
        · exact hb (Place.entry.inj (h.scattered.unique _ _ pkt hr hin))
      | port =>
        rw [hrest _ (by simp)] at hr
        cases h.scattered.unique _ _ pkt hr hin
      | allocator =>
        rw [hrest _ (by simp)] at hr
        cases h.scattered.unique _ _ pkt hr hin
  · intro hnil
    constructor
    · refine h.scattered_of_moved he .port [] hentry (by simp) (by simp [hnil]) ?_
        (fun r hr _ => hrest r hr) hqueued
      rw [hrest _ (by simp), append_nil]
    · rw [hpackets, hhanded]
      exact h.dst

/-- A put keeps all packets exactly if it has a port or finds no packets. -/
theorem put_kept_iff (htable : TableInv ipHash events c.table) (h : Kept c events) {addr : ℕ}
    (haddr : c.table.entry addr = none) (port : Bool) (ip : UInt32) (mac : Mac) (time64 : UInt64) :
    ∃ c', c.put ipHash port ip mac time64 addr = some c' ∧
      TableInv ipHash (.put ip mac time64 :: events) c'.table ∧
      (Kept c' (.put ip mac time64 :: events) ↔
        (ArpCall.put port ip mac time64 addr).KeepsPackets c) := by
  obtain ⟨c', hput, hinv, hcases⟩ := put_spec htable haddr port ip mac time64
  have hqueued : queued (.put ip mac time64 :: events) = queued events := rfl
  refine ⟨c', hput, hinv, ?_⟩
  rcases hcases with ⟨a, e, he, hip, hentry, hpackets⟩ | ⟨hno, hentry, hpackets⟩
  · cases port with
    | true => exact iff_of_true (h.drain_port he hentry hpackets hqueued) (.inl rfl)
    | false =>
      rw [h.drain_no_port_iff he hentry hpackets hqueued]
      constructor
      · intro hnil
        refine .inr fun b f hf hfip => ?_
        obtain rfl := htable.entries.unique b a f e hf he (hfip.trans hip.symm)
        rw [← Option.some.inj (he.symm.trans hf)]
        exact hnil
      · rintro (hport | hnil)
        · cases hport
        · exact hnil a e he hip
  · exact iff_of_true (h.of_no_packets haddr rfl hentry hpackets hqueued)
      (.inr fun a e he hip => absurd hip (hno a e he))

theorem Kept.queue (h : Kept c events) {pkt : ℕ} (hpkt : pkt ∉ queued events)
    (hentry : places c' (.entry a) = places c (.entry a) ++ [pkt])
    (hother : ∀ r, r ≠ .entry a → places c' r = places c r)
    (hqueued : queued events' = pkt :: queued events)
    (hhanded : c'.packets.handed = c.packets.handed) : Kept c' events' := by
  have hplaces : places c' = update (places c) (.entry a)
    (places c (.entry a) ++ [pkt]) := by
    funext r
    rw [update_apply]
    split_ifs with hr
    · rw [hr, hentry]
    · exact hother r hr
  constructor
  · rw [hplaces]
    refine h.scattered.add hpkt (perm_append_singleton _ _) fun x => ?_
    rw [hqueued, mem_cons]
  · rw [hhanded]
    exact h.dst

/-- Putting a packet loses none. -/
theorem putPacket_kept (htable : TableInv ipHash events c.table) (h : Kept c events) {addr pkt : ℕ}
    (haddr : c.table.entry addr = none) (hpkt : pkt ∉ queued events) (ip : UInt32)
    (time64 : UInt64) :
    ∃ c', c.putPacket ipHash ip pkt time64 addr = some c' ∧
      TableInv ipHash (.packet ip pkt time64 :: events) c'.table ∧
      Kept c' (.packet ip pkt time64 :: events) := by
  obtain ⟨c', hput, hinv, hcases⟩ := putPacket_spec htable haddr ip pkt time64
  refine ⟨c', hput, hinv, ?_⟩
  rcases hcases with ⟨a, e, he, hentry, hpackets⟩ | ⟨hentry, hpackets⟩
  · -- first the packets that are too many are freed, then the new one is queued
    let c1 : ArpCache := ⟨{ c.table with
      entry := update c.table.entry a (some { e with list := (evict e.list).1 }) },
      { c.packets with freed := c.packets.freed ++ (evict e.list).2 }⟩
    have hentry1 : c1.table.entry =
      update c.table.entry a (some { e with list := (evict e.list).1 }) := rfl
    have h1 : Kept c1 events := by
      refine ⟨?_, h.dst⟩
      refine h.scattered_of_moved he .allocator (evict e.list).2 rfl (by simp) ?_ rfl ?_ rfl
      · exact (evict_eq e.list).1
      · intro r hr hne
        cases r with
        | entry b => exact absurd rfl (hr b)
        | port => rfl
        | allocator => exact absurd rfl hne
    refine h1.queue (a := a) hpkt ?_ ?_ rfl (by rw [hpackets])
    · rw [places_update hentry, if_pos rfl, places_update hentry1, if_pos rfl]
      rfl
    · intro r hr
      cases r with
      | entry b =>
        have hb : b ≠ a := fun hb => hr (by rw [hb])
        rw [places_update hentry, if_neg hb, places_update hentry1, if_neg hb]
      | port => rw [places, hpackets, places]
      | allocator => rw [places, hpackets, places]
  · refine h.queue (a := addr) hpkt ?_ ?_ rfl (by rw [hpackets])
    · rw [places_update hentry, if_pos rfl, places, haddr]
      rfl
    · intro r hr
      cases r with
      | entry b => rw [places_update hentry, if_neg (fun hb => hr (by rw [hb]))]
      | port => rw [places, hpackets, places]
      | allocator => rw [places, hpackets, places]

/-- An expiry loses no packet. -/
theorem expire_kept (htable : TableInv ipHash events c.table) (h : Kept c events)
    (ha : c.table.timers.nextExpiryTimer = some a) :
    ∃ c' e, c.expire = some c' ∧ c.table.entry a = some e ∧
      TableInv ipHash (.expiry e.ip :: events) c'.table ∧
      Kept c' (.expiry e.ip :: events) := by
  obtain ⟨c', e, hexpire, hinv, he, hentry, hpackets⟩ := expire_spec htable ha
  rw [freeAll_eq] at hpackets
  refine ⟨c', e, hexpire, he, hinv, ?_, ?_⟩
  · refine h.scattered_of_moved he .allocator e.list hentry (by simp) (by simp) ?_ ?_ rfl
    · rw [places, hpackets, places]
    · intro r hr hne
      cases r with
      | entry b => exact absurd rfl (hr b)
      | port => rw [places, hpackets, places]
      | allocator => exact absurd rfl hne
  · rw [hpackets]
    exact h.dst

end Calls

/-! ## Runs -/

theorem Kept.init (timers : LinkHeap) (dst : ℕ → Mac) : Kept (arpCacheInit timers dst) [] := by
  have hplaces : ∀ p, places (arpCacheInit timers dst) p = [] := by
    intro p
    cases p <;> rfl
  refine ⟨⟨fun p => ?_, fun p r b hb => ?_, fun b => ?_⟩, fun x hx => ?_⟩
  · rw [hplaces]
    exact nodup_nil
  · rw [hplaces] at hb
    cases hb
  · simp only [hplaces]
    simp [queued]
  · cases hx

/-- In a run, all packets are in exactly one place at each moment, and are handed to a port with the
MAC address of the entry, exactly if no put without a port is for an entry with packets. -/
theorem arp_packets_kept_iff (ipHash : UInt32 → UInt32) (timers : LinkHeap) (dst : ℕ → Mac)
    (calls : List ArpCall)
    (hcalls : Along (arpStep ipHash) (fun x call => call.Allowed x)
      (arpCacheInit timers dst, []) calls) :
    (∀ before x, before <+: calls → run (arpStep ipHash) (arpCacheInit timers dst, []) before =
      some x → Kept x.1 x.2) ↔
      Along (arpStep ipHash) (fun x call => call.KeepsPackets x.1)
        (arpCacheInit timers dst, []) calls := by
  have hpossible : ∀ before, before <+: calls →
      ∃ x, run (arpStep ipHash) (arpCacheInit timers dst, []) before = some x := by
    rintro before ⟨rest, rfl⟩
    obtain ⟨x, hrun, -⟩ := exists_run_tableInv hcalls.of_append.1
    exact ⟨x, hrun⟩
  refine Iff.trans ⟨fun h before hbefore => ?_, fun h before x hbefore hrun => ?_⟩
    (hcalls.forall_iff (P := fun x => TableInv ipHash x.2 x.1.table) (Q := fun x => Kept x.1 x.2)
      (fun ⟨c, events⟩ call htable h hcall => .inr ?_) (TableInv.init ipHash timers dst)
        (Kept.init timers dst))
  · obtain ⟨x, hrun⟩ := hpossible before hbefore
    exact ⟨x, hrun, h before x hbefore hrun⟩
  · obtain ⟨x', hrun', hkept⟩ := h before hbefore
    rwa [Option.some.inj (hrun.symm.trans hrun')]
  cases call with
  | put port ip mac time64 addr =>
    obtain ⟨c', hput, hinv, hkept⟩ := put_kept_iff htable h hcall port ip mac time64
    exact ⟨_, arpStep_eq hput, hinv, hkept⟩
  | putPacket ip pkt time64 addr =>
    obtain ⟨c', hput, hinv, hkept⟩ := putPacket_kept htable h hcall.1 hcall.2 ip time64
    exact ⟨_, arpStep_eq hput, hinv, iff_of_true hkept trivial⟩
  | expire now =>
    obtain ⟨a, ha, -⟩ := hcall
    obtain ⟨c', e, hexpire, he, hinv, hkept⟩ := expire_kept htable h ha
    have hstep : c.step ipHash (.expire now) = some c' := hexpire
    refine ⟨_, arpStep_eq hstep, ?_⟩
    rw [event_expire ha he]
    exact ⟨hinv, iff_of_true hkept trivial⟩

/-- A packet is queued for 10.0.0.1, and its MAC address is put without a port: the packet is
neither handed to a port nor freed nor in a list. -/
theorem arp_packet_dropped : ∃ c events, run (arpStep id) (emptyCache, [])
      [.putPacket 0x0A000001 7 5 100, .put false 0x0A000001 (fun _ => 0x42) 6 101] =
        some (c, events) ∧
    7 ∈ queued events ∧ ∀ p, 7 ∉ places c p := by
  refine ⟨_, _, rfl, by decide, fun p => ?_⟩
  cases p with
  | entry a =>
    rcases eq_or_ne a 100 with rfl | ha
    · decide
    · -- there is no other entry
      have hnone : ∀ x y : Option ArpEntry,
        update (update (fun _ => none) 100 x) 100 y a = none := by
        intro x y
        rw [update_of_ne ha, update_of_ne ha]
      show 7 ∉ ((update (update (fun _ => none) 100 _) 100 _ a).map
        ArpEntry.list).getD []
      rw [hnone]
      exact not_mem_nil
  | port => decide
  | allocator => decide

theorem arp_packets_kept_short_life :
    ∃ c events, run (arpStep id) (emptyCache, []) shortLife = some (c, events) ∧
    Kept c events ∧ c.packets.handed.map Handed.pkt = [7] := by
  refine ⟨_, _, rfl, ?_, rfl⟩
  refine (arp_packets_kept_iff id _ _ shortLife shortLife_allowed).mpr ?_ shortLife _
    (prefix_refl _) rfl
  exact ⟨trivial, fun _ _ =>
    ⟨.inl rfl, fun _ _ => ⟨trivial, fun _ _ => ⟨.inl rfl, fun _ _ => trivial⟩⟩⟩⟩

end Pptk.Arp
