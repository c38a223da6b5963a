import Pptk.Timer.LinkHeap
import Pptk.Lib.Machine

/-!
# ARP cache

Model of `arp/arp.c` and `arp/arp.h`. The entries are at addresses, which are numbers; a hash table
finds the entry of an IP address, an entry has the list of the packets that wait for its MAC
address, and its timer is a node of the linked heap of timers under the address of the entry.

* The chains of the hash table (`hash_list_add_head`, `hash_list_delete`) and the packet lists
  (`linked_list_add_tail`, `linked_list_delete`) are lists, of entries and of packets.
* An access to an entry that is not allocated and an `abort()` make the result of a function `none`.
* `malloc` succeeds: the address that it returns is an argument. The hash `ip_hash` is a parameter.
* The state also holds what the calls gave away: the packets that were handed to a port, and those
  that were freed.
* A run has a log beside the state, which is made of its calls (`ArpCall.event`).
-/

namespace Pptk.Arp

open Timer Function

/-! ## State -/

/-- The bytes of a MAC address. -/
abbrev Mac := Fin 6 → UInt8

/-- `struct arp_entry` (arp.h:13-21), without the nodes and `last_tx`. -/
structure ArpEntry where
  ip : UInt32
  mac : Mac
  valid : Bool
  list : List ℕ

/-- The table of entries: `hash` (`struct hash_table`, hashtable.h:12-21) with the entries, and the
heap of timers. -/
structure ArpTable where
  buckets : ℕ → List ℕ
  itemcnt : ℕ
  entry : ℕ → Option ArpEntry
  timers : LinkHeap

/-- A packet that is handed to a port: the destination in its Ethernet header, and the MAC address
of the entry. -/
structure Handed where
  pkt : ℕ
  dst : Mac
  mac : Mac

/-- The packets: their Ethernet destinations, those that were handed to a port, and those that were
freed. -/
structure ArpPackets where
  dst : ℕ → Mac
  handed : List Handed
  freed : List ℕ

/-- The table and the packets. -/
structure ArpCache where
  table : ArpTable
  packets : ArpPackets

/-- The number of buckets: `hash_table_init` is called with 1024, a power of 2 (arp.h:44). -/
def bucketcnt : ℕ := 1024

/-- The bucket of a hash (hashtable.h:211, 261). -/
def bucketOf (hashval : UInt32) : ℕ := hashval.toNat &&& (bucketcnt - 1)

/-- `ARP_CACHE_MAX_PACKETS` (arp.c:30). -/
def maxPackets : ℕ := 40

/-- The time at which an entry expires (arp.c:53, 66, 88, 101). -/
def expiryTime (time64 : UInt64) : ℕ := (time64 + 30 * 1000 * 1000).toNat

/-! ## Lookup -/

/-- `HASH_TABLE_FOR_EACH_POSSIBLE` with the test of the address (arp.c:40-43, 80-83, arp.h:59-66).
-/
def ArpTable.lookup (s : ArpTable) (ip : UInt32) : List ℕ → Option (Option ℕ)
  | [] => some none
  | a :: chain => (s.entry a).bind fun e => if e.ip = ip then some (some a) else s.lookup ip chain

variable (ipHash : UInt32 → UInt32)

/-- `arp_cache_get_accept_invalid` (arp.h:53-68). -/
def ArpTable.getAcceptInvalid (s : ArpTable) (ip : UInt32) : Option (Option ℕ) :=
  s.lookup ip (s.buckets (bucketOf (ipHash ip)))

/-- `arp_cache_get` (arp.h:70-80). -/
def ArpTable.get (s : ArpTable) (ip : UInt32) : Option (Option ArpEntry) :=
  (s.getAcceptInvalid ipHash ip).bind fun found =>
    match found with
    | none => some none
    | some a => (s.entry a).map fun e => if e.valid then some e else none

/-! ## Changes of the table -/

/-- The entry at `a` is changed, and its timer gets a new time (arp.c:53-54, 88-89). -/
def ArpTable.change (s : ArpTable) (a : ℕ) (e : ArpEntry) (time64 : UInt64) : Option ArpTable :=
  ((s.timers.setTime a (expiryTime time64)).modify a).map fun timers =>
    { s with entry := update s.entry a (some e), timers := timers }

/-- An entry is allocated at `a`, and it and its timer are added (arp.c:58-69, 93-104). -/
def ArpTable.insert (s : ArpTable) (a : ℕ) (e : ArpEntry) (time64 : UInt64) : Option ArpTable :=
  ((s.timers.setTime a (expiryTime time64)).add a).map fun timers =>
    { buckets := update s.buckets (bucketOf (ipHash e.ip))
        (a :: s.buckets (bucketOf (ipHash e.ip))),
      itemcnt := s.itemcnt + 1, entry := update s.entry a (some e), timers := timers }

/-- `hash_table_delete_already_bucket_locked` and `free` (arp.c:118-119, hashtable.h:148-165): the
node is taken out of the chain that it is in. -/
def ArpTable.delete (s : ArpTable) (a : ℕ) : Option ArpTable :=
  if s.itemcnt = 0 then none
  else
    some { s with
      buckets := fun i => (s.buckets i).erase a, itemcnt := s.itemcnt - 1, entry :=
        update s.entry a none }

/-! ## Packets -/

/-- `arp_cache_drain` (arp.c:14-28) of an entry with the MAC address `mac`, which leaves its list
empty. -/
def ArpPackets.drain (q : ArpPackets) (port : Bool) (mac : Mac) : List ℕ → ArpPackets
  | [] => q
  | pkt :: list =>
    let q := { q with dst := update q.dst pkt mac }
    if port then ArpPackets.drain { q with handed := q.handed ++ [⟨pkt, q.dst pkt, mac⟩] } port mac
      list
    else ArpPackets.drain q port mac list

/-- The loop in which the first packets are freed while there are too many (arp.c:45-51): the
packets that are kept, and those that are freed. -/
def evict : List ℕ → List ℕ × List ℕ
  | [] => ([], [])
  | pkt :: list =>
    if (pkt :: list).length ≥ maxPackets then ((evict list).1, pkt :: (evict list).2)
      else (pkt :: list, [])

/-- The loop in which all packets are freed (arp.c:111-117). -/
def ArpPackets.freeAll (q : ArpPackets) : List ℕ → ArpPackets
  | [] => q
  | pkt :: list => ArpPackets.freeAll { q with freed := q.freed ++ [pkt] } list

/-! ## Calls -/

/-- `arp_cache_put_packet` (arp.c:33-71). -/
def ArpCache.putPacket (s : ArpCache) (ip : UInt32) (pkt : ℕ) (time64 : UInt64) (addr : ℕ) :
    Option ArpCache :=
  (s.table.getAcceptInvalid ipHash ip).bind fun found =>
    match found with
    | some a => (s.table.entry a).bind fun e =>
      (s.table.change a { e with list := (evict e.list).1 ++ [pkt] } time64).map fun table =>
        ⟨table, { s.packets with freed := s.packets.freed ++ (evict e.list).2 }⟩
    | none =>
      (s.table.insert ipHash addr ⟨ip, fun _ => 0, false, [pkt]⟩ time64).map fun table =>
        ⟨table, s.packets⟩

/-- `arp_cache_put` (arp.c:73-105). -/
def ArpCache.put (s : ArpCache) (port : Bool) (ip : UInt32) (mac : Mac) (time64 : UInt64)
    (addr : ℕ) : Option ArpCache :=
  (s.table.getAcceptInvalid ipHash ip).bind fun found =>
    match found with
    | some a => (s.table.entry a).bind fun e =>
      (s.table.change a { e with mac := mac, valid := true, list := [] } time64).map fun table =>
        ⟨table, s.packets.drain port mac e.list⟩
    | none => (s.table.insert ipHash addr ⟨ip, mac, true, []⟩ time64).map fun table =>
      ⟨table, s.packets⟩

/-- `arp_entry_expiry_fn` (arp.c:107-120) of the entry at `a`. -/
def ArpCache.entryExpiryFn (s : ArpCache) (a : ℕ) : Option ArpCache :=
  (s.table.entry a).bind fun e =>
    (s.table.delete a).map fun table => ⟨table, s.packets.freeAll e.list⟩

/-- The expiry of the timer that is next: it is removed from the heap, and its function is called.
-/
def ArpCache.expire (s : ArpCache) : Option ArpCache :=
  s.table.timers.nextExpiryTimer.bind fun a => (s.table.timers.remove a).bind fun timers =>
    ArpCache.entryExpiryFn ⟨{ s.table with timers := timers }, s.packets⟩ a

/-- The calls, with the address that `malloc` returns, and expiries at the time `now`. -/
inductive ArpCall
  | put (port : Bool) (ip : UInt32) (mac : Mac) (time64 : UInt64) (addr : ℕ)
  | putPacket (ip : UInt32) (pkt : ℕ) (time64 : UInt64) (addr : ℕ)
  | expire (now : UInt64)

/-- The cache after a call. -/
def ArpCache.step (s : ArpCache) : ArpCall → Option ArpCache
  | .put port ip mac time64 addr => s.put ipHash port ip mac time64 addr
  | .putPacket ip pkt time64 addr => s.putPacket ipHash ip pkt time64 addr
  | .expire _ => s.expire

/-- `arp_cache_init` (arp.h:42-49) and `timer_linkheap_init`. -/
def arpCacheInit (timers : LinkHeap) (dst : ℕ → Mac) : ArpCache :=
  ⟨⟨fun _ => [], 0, fun _ => none, timers.init⟩, ⟨dst, [], []⟩⟩

/-! ## Runs -/

/-- What happens to the entry of an IP address. -/
inductive ArpEvent
  | put (ip : UInt32) (mac : Mac) (time64 : UInt64)
  | packet (ip : UInt32) (pkt : ℕ) (time64 : UInt64)
  | expiry (ip : UInt32)

/-- What a call asks for: of an expiry, that the entry of the timer that is next goes. -/
def ArpCall.event (s : ArpCache) : ArpCall → List ArpEvent
  | .put _ ip mac time64 _ => [.put ip mac time64]
  | .putPacket ip pkt time64 _ => [.packet ip pkt time64]
  | .expire _ => ((s.table.timers.nextExpiryTimer.bind s.table.entry).map fun e =>
    .expiry e.ip).toList

/-- The packet of a put-packet. -/
def ArpEvent.pkt? : ArpEvent → Option ℕ
  | packet _ pkt _ => some pkt
  | _ => none

/-- The packets that were queued. -/
def queued (events : List ArpEvent) : List ℕ := events.filterMap ArpEvent.pkt?

/-- The cache and the log after a call. -/
def arpStep : ArpCache × List ArpEvent → ArpCall → Option (ArpCache × List ArpEvent) :=
  Lib.logged (ArpCache.step ipHash) ArpCall.event

/-- What the caller and the allocator see to: `malloc` returns an address that is not in use, a
packet is queued once, and a timer expires when its time has come. -/
def ArpCall.Allowed (x : ArpCache × List ArpEvent) : ArpCall → Prop
  | .put _ _ _ _ addr => x.1.table.entry addr = none
  | .putPacket _ pkt _ addr => x.1.table.entry addr = none ∧ pkt ∉ queued x.2
  | .expire now => ∃ a, x.1.table.timers.nextExpiryTimer = some a ∧
    x.1.table.timers.time64 a ≤ now.toNat

end Pptk.Arp
