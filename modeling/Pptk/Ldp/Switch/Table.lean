import Pptk.Iphdr.Transport
import Pptk.Lib.Recency
import Pptk.Lib.Machine

/-!
# The learning table of the switch

Model of `port_get`, `time_out` and `port_put` (ldp/ldpswitch.c:68-208) for one thread, with the
functions of the hash table that they use (hashtable/hashtable.h). The entries are at addresses,
which are numbers. An entry is in a chain of the hash table and in the list from the oldest to the
newest entry, and both are lists of addresses.

* An access to an entry that is not allocated and an `abort()` make the result of a function `none`.
* What `malloc` returns is an argument, and so is the hash of a MAC address.
* The lines that are printed are outputs.

Over it stands what the table is for (`Record`, `Lib.Recency`): a list of what was learned, in the
order of the last learn.
-/

namespace Pptk.Ldp.Switch

open Pptk.Lib Pptk.Iphdr Function List

/-! ## State -/

/-- The bytes of a MAC address. -/
abbrev Mac := Fin 6 → UInt8

/-- The array `char mac[6]`. -/
def Mac.bytes (mac : Mac) : Mem := fun i => if h : i < 6 then mac ⟨i, h⟩ else 0

/-- `struct entry` (ldpswitch.c:31-38), without the nodes. -/
structure Entry where
  mac : Mac
  port : ℤ
  time64 : UInt64
  bucket : ℕ

/-- The table and the list `oldest_to_newest`, with the entries. -/
structure Table where
  buckets : ℕ → List ℕ
  itemcnt : ℕ
  entry : ℕ → Option Entry
  oldestToNewest : List ℕ

/-- A line that is printed. -/
inductive Message
  | timeout (mac : Mac) (port : ℤ)
  | shortage (mac : Mac) (port : ℤ)
  | learning (mac : Mac) (port : ℤ)
deriving DecidableEq

/-- A successful call of `malloc`: an address that is not in use. -/
structure Malloc where
  addr : List ℕ → ℕ
  fresh : ∀ used, addr used ∉ used

/-- `TIMEOUT` (ldpswitch.c:88). -/
def timeout : UInt64 := 300 * 1000 * 1000

/-- `fast_mac_equals` (ldpswitch.c:55-66). -/
def fastMacEquals (e : Endian) (mac1 mac2 : Mac) : Bool :=
  if hdrGet32h e mac1.bytes 0 ≠ hdrGet32h e mac2.bytes 0 then false
  else if hdrGet16h e mac1.bytes 4 ≠ hdrGet16h e mac2.bytes 4 then false
  else true

/-- What the code is compiled and started with: the byte order, `mac_hash` and the number of
buckets. -/
structure Config where
  endian : Endian
  macHash : Mac → UInt32
  bucketcnt : ℕ
  bucketcnt_pos : 0 < bucketcnt

/-- The bucket of a MAC address (ldpswitch.c:187, hashtable.h:195, 261). -/
def Config.bucketOf (c : Config) (mac : Mac) : ℕ := (c.macHash mac).toNat &&& (c.bucketcnt - 1)

/-! ## Functions -/

/-- `hash_table_init` and `linked_list_head_init`. -/
def Table.init : Table := ⟨fun _ => [], 0, fun _ => none, []⟩

/-- The entry of a MAC address in a chain (`HASH_TABLE_FOR_EACH_POSSIBLE`, ldpswitch.c:75-83,
132-150). -/
def Table.lookup (c : Config) (t : Table) (mac : Mac) : List ℕ → Option (Option ℕ)
  | [] => some none
  | a :: chain => (t.entry a).bind fun e =>
    if fastMacEquals c.endian e.mac mac then some (some a) else t.lookup c mac chain

/-- `hash_table_delete` and `hash_table_delete_already_bucket_locked` for a table without mutexes
(hashtable.h:148-186): the node is taken out of the chain that it is in. -/
def Table.hashTableDelete (t : Table) (a : ℕ) : Option Table :=
  if t.itemcnt = 0 then none
  else some { t with buckets := fun i => (t.buckets i).erase a, itemcnt := t.itemcnt - 1 }

/-- An entry is taken out of the list and of the table, and freed (ldpswitch.c:102-112, 161-179). -/
def Table.delete (t : Table) (a : ℕ) : Option Table :=
  (Table.hashTableDelete { t with oldestToNewest := t.oldestToNewest.erase a } a).map fun t =>
    { t with entry := update t.entry a none }

variable (c : Config)

/-- `port_get` (ldpswitch.c:68-86). -/
def Table.portGet (t : Table) (mac : Mac) : Option ℤ :=
  (t.lookup c mac (t.buckets (c.bucketOf mac))).bind fun found =>
    match found with
    | none => some (-1)
    | some a => (t.entry a).map Entry.port

/-- The loop of `time_out` over the list (ldpswitch.c:97-118). -/
def Table.timeOutLoop (time64 : UInt64) : List ℕ → Table → Option (Table × List Message)
  | [], t => some (t, [])
  | a :: rest, t => (t.entry a).bind fun e =>
    if e.time64 + timeout < time64 then
      (t.delete a).bind fun t => (timeOutLoop time64 rest t).map fun r =>
        (r.1, .timeout e.mac e.port :: r.2)
    else some (t, [])

/-- `time_out` (ldpswitch.c:90-123). -/
def Table.timeOut (t : Table) (time64 : UInt64) : Option (Table × List Message) :=
  timeOutLoop time64 t.oldestToNewest t

/-- The entry at `a` is learned again (ldpswitch.c:138-145). -/
def Table.refresh (t : Table) (a : ℕ) (port : ℤ) (time64 : UInt64) : Option Table :=
  (t.entry a).map fun e =>
    { t with
      entry := update t.entry a (some { e with port := port, time64 := time64 })
      oldestToNewest := t.oldestToNewest.erase a ++ [a] }

/-- The oldest entry goes if the table is full (ldpswitch.c:159-180). Without mutexes the two ways
of deleting it do the same. -/
def Table.makeRoom (t : Table) : Option (Table × List Message) :=
  if t.itemcnt ≥ c.bucketcnt then
    match t.oldestToNewest with
    | [] => none
    | a :: _ => (t.entry a).bind fun e => (t.delete a).map fun t => (t, [.shortage e.mac e.port])
  else some (t, [])

/-- A new entry at the address `a` (ldpswitch.c:186-191). -/
def Table.add (t : Table) (a : ℕ) (mac : Mac) (port : ℤ) (time64 : UInt64) : Table where
  buckets := update t.buckets (c.bucketOf mac) (a :: t.buckets (c.bucketOf mac))
  itemcnt := t.itemcnt + 1
  entry := update t.entry a (some ⟨mac, port, time64, c.bucketOf mac⟩)
  oldestToNewest := t.oldestToNewest ++ [a]

/-- `port_put` (ldpswitch.c:125-208). -/
def Table.portPut (t : Table) (mac : Mac) (port : ℤ) (time64 : UInt64) (malloc : Option Malloc) :
    Option (Table × List Message) :=
  (t.lookup c mac (t.buckets (c.bucketOf mac))).bind fun found =>
    match found with
    | some a => (t.refresh a port time64).map (·, [])
    | none => (t.makeRoom c).map fun r =>
      match malloc with
      | none => r
      | some m => (r.1.add c (m.addr r.1.oldestToNewest) mac port time64, r.2 ++
        [.learning mac port])

/-! ## The comparison -/

variable {c}

/-- The comparison by words is equality. -/
theorem fastMacEquals_iff {e : Endian} {mac1 mac2 : Mac} :
    fastMacEquals e mac1 mac2 = true ↔ mac1 = mac2 := by
  have hlt : ∀ (mac : Mac) i, (mac.bytes i).toNat < 256 := fun mac i => (mac.bytes i).toNat_lt
  have hbytes : ∀ (mac : Mac) (i : Fin 6), mac.bytes i = mac i := fun mac i => dif_pos i.2
  constructor
  · intro h
    rw [fastMacEquals] at h
    split_ifs at h with h32 h16
    rw [not_not] at h32 h16
    have hall : ∀ i < 6, mac1.bytes i = mac2.bytes i := by
      intro i hi
      apply UInt8.toNat_inj.mp
      have h0 := hlt mac1 0; have h1 := hlt mac1 1; have h2 := hlt mac1 2
      have h3 := hlt mac1 3; have h4 := hlt mac1 4; have h5 := hlt mac1 5
      have k0 := hlt mac2 0; have k1 := hlt mac2 1; have k2 := hlt mac2 2
      have k3 := hlt mac2 3; have k4 := hlt mac2 4; have k5 := hlt mac2 5
      cases e <;> simp only [hdrGet32h, hdrGet16h, Nat.zero_add, Nat.reduceAdd] at h32 h16 <;>
        interval_cases i <;> omega
    funext i
    rw [← hbytes mac1 i, ← hbytes mac2 i]
    exact hall i i.2
  · rintro rfl
    simp [fastMacEquals]

/-! ## What the table is for -/

/-- What was learned about a MAC address, and when. -/
structure Record where
  mac : Mac
  port : ℤ
  time64 : UInt64
deriving DecidableEq

/-- The record is too old (ldpswitch.c:100). The sum is one of `uint64_t` values. -/
def Record.expired (time64 : UInt64) (r : Record) : Bool := r.time64 + timeout < time64

/-- The records that time out, and the messages for them. -/
def expire (l : List Record) (time64 : UInt64) : List Record × List Message :=
  (l.dropWhile (Record.expired time64),
    (l.takeWhile (Record.expired time64)).map fun r => .timeout r.mac r.port)

/-- The message for the record that has to go. -/
def shortages (cap : ℕ) (l : List Record) : List Message :=
  (Recency.evicted cap l).map fun r => .shortage r.mac r.port

/-- A learn. A new record needs memory. -/
def learn (cap : ℕ) (l : List Record) (r : Record) (memory : Bool) : List Record × List Message :=
  if (Recency.find Record.mac l r.mac).isSome then (Recency.touch Record.mac l r, [])
  else if memory then
    (Recency.touch Record.mac (Recency.evict cap l) r, shortages cap l ++ [.learning r.mac r.port])
  else (Recency.evict cap l, shortages cap l)

theorem learn_of_getLast? {cap : ℕ} {l : List Record} {r : Record} (hnd : (l.map Record.mac).Nodup)
    (h : l.getLast? = some r) : (learn cap l r true).1 = l := by
  have hknown : (Recency.find Record.mac l r.mac).isSome := by
    rw [Option.isSome_iff_ne_none, ne_eq, Recency.find_eq_none, not_not]
    exact mem_map_of_mem (mem_of_getLast? h)
  rw [learn, if_pos hknown]
  exact Recency.touch_of_getLast? hnd h

theorem getLast?_learn (cap : ℕ) (l : List Record) (r : Record) :
    (learn cap l r true).1.getLast? = some r := by
  rw [learn]
  by_cases hknown : (Recency.find Record.mac l r.mac).isSome
  · rw [if_pos hknown]
    exact Recency.getLast?_touch l r
  · rw [if_neg hknown, if_pos rfl]
    exact Recency.getLast?_touch _ r

theorem mem_learn {cap : ℕ} {l : List Record} {r x : Record} {memory : Bool}
    (h : x ∈ (learn cap l r memory).1) : x ∈ l ∨ x = r := by
  rw [learn] at h
  split_ifs at h
  · exact Recency.mem_touch h
  · rcases Recency.mem_touch h with h | h
    · exact .inl ((Recency.evict_sublist cap l).subset h)
    · exact .inr h
  · exact .inl ((Recency.evict_sublist cap l).subset h)

/-- The port that was learned for a MAC address. -/
def portOf (l : List Record) (mac : Mac) :
    Option ℤ := (Recency.find Record.mac l mac).map Record.port

/-! ## Invariant -/

/-- The record of an entry. -/
def Entry.record (e : Entry) : Record := ⟨e.mac, e.port, e.time64⟩

/-- The records of the entries at some addresses. -/
def recordsAt (entry : ℕ → Option Entry) (as : List ℕ) : List Record :=
  as.filterMap fun a => (entry a).map Entry.record

/-- What was learned, in the order of the list. -/
def Table.records (t : Table) : List Record := recordsAt t.entry t.oldestToNewest

/-- The MAC address of the entry at `a`. -/
def Table.macAt (t : Table) (a : ℕ) : Option Mac := (t.entry a).map Entry.mac

/-- The chains and the list have the same entries, one for each MAC address. -/
structure TableInv (c : Config) (t : Table) : Prop where
  nodup : t.oldestToNewest.Nodup
  alloc : ∀ a, a ∈ t.oldestToNewest ↔ ∃ mac, t.macAt a = some mac
  chain : ∀ i a, a ∈ t.buckets i ↔ ∃ mac, t.macAt a = some mac ∧ c.bucketOf mac = i
  chainNodup : ∀ i, (t.buckets i).Nodup
  unique : ∀ a b mac, t.macAt a = some mac → t.macAt b = some mac → a = b
  count : t.itemcnt = t.oldestToNewest.length

theorem TableInv.init (c : Config) : TableInv c Table.init :=
  ⟨nodup_nil, by simp [Table.init, Table.macAt], by simp [Table.init, Table.macAt],
    fun _ => nodup_nil, by simp [Table.init, Table.macAt], rfl⟩

section Records

variable {entry : ℕ → Option Entry} {as bs : List ℕ} {a : ℕ} {e : Entry}

theorem recordsAt_append : recordsAt entry (as ++ bs) = recordsAt entry as ++ recordsAt entry bs :=
  filterMap_append

theorem recordsAt_cons (he : entry a = some e) :
    recordsAt entry (a :: as) = e.record :: recordsAt entry as := by
  rw [recordsAt, filterMap_cons, he]
  rfl

theorem recordsAt_update (ha : a ∉ as) (o : Option Entry) :
    recordsAt (update entry a o) as = recordsAt entry as := by
  refine filterMap_congr fun b hb => ?_
  rw [update_of_ne (ne_of_mem_of_not_mem hb ha)]

theorem mem_recordsAt {r : Record} :
    r ∈ recordsAt entry as ↔ ∃ a ∈ as, ∃ e, entry a = some e ∧ e.record = r := by
  simp [recordsAt, mem_filterMap]

theorem length_recordsAt (h : ∀ a ∈ as, ∃ e, entry a = some e) :
    (recordsAt entry as).length = as.length := by
  induction as with
  | nil => rfl
  | cons a as ih =>
    obtain ⟨e, he⟩ := h a (by simp)
    rw [recordsAt_cons he, length_cons, length_cons, ih fun b hb => h b (by simp [hb])]

end Records

section MacAt

variable {t : Table} {a : ℕ} {e : Entry} {mac : Mac}

theorem Table.macAt_eq_some : t.macAt a = some mac ↔ ∃ e, t.entry a = some e ∧ e.mac = mac := by
  rw [Table.macAt, Option.map_eq_some_iff]

theorem Table.macAt_of_entry (he : t.entry a = some e) : t.macAt a = some e.mac := by
  rw [Table.macAt, he]
  rfl

theorem Table.lookup_spec (c : Config) (mac : Mac) {chain : List ℕ}
    (hchain : ∀ a ∈ chain, ∃ e, t.entry a = some e) :
    (t.lookup c mac chain = some none ∧ ∀ a ∈ chain, t.macAt a ≠ some mac) ∨
      ∃ a e, t.lookup c mac chain = some (some a) ∧ t.entry a = some e ∧ e.mac = mac := by
  induction chain with
  | nil => exact .inl ⟨rfl, by simp⟩
  | cons a chain ih =>
    obtain ⟨e, he⟩ := hchain a (by simp)
    rw [Table.lookup, he, Option.bind_some]
    by_cases hmac : e.mac = mac
    · rw [if_pos (fastMacEquals_iff.mpr hmac)]
      exact .inr ⟨a, e, rfl, he, hmac⟩
    · rw [if_neg (mt fastMacEquals_iff.mp hmac)]
      rcases ih fun b hb => hchain b (by simp [hb]) with ⟨hnone, hno⟩ | hsome
      · refine .inl ⟨hnone, fun b hb => ?_⟩
        rcases mem_cons.mp hb with rfl | hb
        · rw [Table.macAt_of_entry he]
          exact fun heq => hmac (Option.some.inj heq)
        · exact hno b hb
      · exact .inr hsome

end MacAt

namespace TableInv

variable {t : Table} {a : ℕ} {e : Entry} {mac : Mac}

theorem mem_of_entry (h : TableInv c t) (he : t.entry a = some e) : a ∈ t.oldestToNewest :=
  (h.alloc a).mpr ⟨e.mac, Table.macAt_of_entry he⟩

theorem exists_entry (h : TableInv c t) (ha : a ∈ t.oldestToNewest) : ∃ e, t.entry a = some e := by
  obtain ⟨mac, hmac⟩ := (h.alloc a).mp ha
  obtain ⟨e, he, _⟩ := Table.macAt_eq_some.mp hmac
  exact ⟨e, he⟩

theorem length_records (h : TableInv c t) : t.records.length = t.itemcnt := by
  rw [Table.records, length_recordsAt fun a ha => h.exists_entry ha, h.count]

theorem nodup_records (h : TableInv c t) : (t.records.map Record.mac).Nodup := by
  rw [Table.records, recordsAt, map_filterMap]
  refine h.nodup.filterMap fun a b mac ha hb => h.unique a b mac ?_ ?_
  · rw [Table.macAt]
    simpa [Entry.record] using ha
  · rw [Table.macAt]
    simpa [Entry.record] using hb

theorem find_of_entry (h : TableInv c t) (he : t.entry a = some e) :
    Recency.find Record.mac t.records e.mac = some e.record := by
  have hmem : e.record ∈ t.records := mem_recordsAt.mpr ⟨a, h.mem_of_entry he, e, he, rfl⟩
  cases hfind : Recency.find Record.mac t.records e.mac with
  | none => exact absurd (mem_map_of_mem hmem) (Recency.find_eq_none.mp hfind)
  | some r =>
    have hr : r.mac = e.mac := by simpa using find?_some hfind
    obtain ⟨b, _, f, hf, rfl⟩ := mem_recordsAt.mp (mem_of_find?_eq_some hfind)
    have hb : t.macAt b = some e.mac := by
      rw [Table.macAt_of_entry hf]
      exact congrArg some hr
    obtain rfl := h.unique b a e.mac hb (Table.macAt_of_entry he)
    rw [Option.some.inj (hf.symm.trans he)]

theorem find_eq_none (hno : ∀ a, t.macAt a ≠ some mac) :
    Recency.find Record.mac t.records mac = none := by
  rw [Recency.find_eq_none]
  intro hmem
  obtain ⟨r, hr, rfl⟩ := mem_map.mp hmem
  obtain ⟨a, _, e, he, rfl⟩ := mem_recordsAt.mp hr
  exact hno a (Table.macAt_of_entry he)

/-- The search of a chain finds the entry of an address, if there is one. -/
theorem lookup_spec (h : TableInv c t) (mac : Mac) :
    (t.lookup c mac (t.buckets (c.bucketOf mac)) = some none ∧
        Recency.find Record.mac t.records mac = none) ∨
      ∃ a e, t.lookup c mac (t.buckets (c.bucketOf mac)) = some (some a) ∧ t.entry a = some e ∧
        e.mac = mac ∧ Recency.find Record.mac t.records mac = some e.record := by
  have hchain : ∀ a ∈ t.buckets (c.bucketOf mac), ∃ e, t.entry a = some e := by
    intro a ha
    obtain ⟨mac', hmac', _⟩ := (h.chain _ a).mp ha
    exact h.exists_entry ((h.alloc a).mpr ⟨mac', hmac'⟩)
  rcases Table.lookup_spec c mac hchain with ⟨hnone, hno⟩ | ⟨a, e, hsome, he, hmac⟩
  · have hno' : ∀ a, t.macAt a ≠ some mac :=
      fun a hmac => hno a ((h.chain _ a).mpr ⟨mac, hmac, rfl⟩) hmac
    exact .inl ⟨hnone, find_eq_none hno'⟩
  · exact .inr ⟨a, e, hsome, he, hmac, hmac ▸ h.find_of_entry he⟩

/-- The lookup returns the port of the record of an address, or -1. -/
theorem portGet (h : TableInv c t) (mac : Mac) :
    t.portGet c mac = some ((portOf t.records mac).getD (-1)) := by
  rw [Table.portGet, portOf]
  rcases h.lookup_spec mac with ⟨hl, hf⟩ | ⟨a, e, hl, he, _, hf⟩
  · rw [hl, hf]
    rfl
  · rw [hl, hf, Option.bind_some]
    dsimp only
    rw [he]
    rfl

/-! ## The changes -/

theorem delete (h : TableInv c t) (he : t.entry a = some e) :
    ∃ t', t.delete a = some t' ∧ TableInv c t' ∧ t'.oldestToNewest = t.oldestToNewest.erase a ∧
      t'.entry = update t.entry a none := by
  have ha := h.mem_of_entry he
  have hcount : t.itemcnt ≠ 0 := by
    rw [h.count]
    exact Nat.ne_of_gt (length_pos_of_mem ha)
  let t' : Table := ⟨fun i => (t.buckets i).erase a, t.itemcnt - 1, update t.entry a none,
    t.oldestToNewest.erase a⟩
  have hself : t'.macAt a = none := by simp [t', Table.macAt]
  have hother : ∀ b, b ≠ a → t'.macAt b = t.macAt b := by
    intro b hb
    simp [t', Table.macAt, hb]
  refine ⟨t', ?_, ⟨h.nodup.erase a, fun b => ?_, fun i b => ?_, fun i => (h.chainNodup i).erase a,
    fun b d mac hb hd => ?_, ?_⟩, rfl, rfl⟩
  · rw [Table.delete, Table.hashTableDelete]
    dsimp only
    rw [if_neg hcount]
    rfl
  · rw [h.nodup.mem_erase_iff]
    by_cases hb : b = a
    · simp [hb, hself]
    · simp [hb, hother b hb, h.alloc]
  · rw [(h.chainNodup i).mem_erase_iff]
    by_cases hb : b = a
    · simp [hb, hself]
    · simp [hb, hother b hb, h.chain]
  · have hne : ∀ x, t'.macAt x = some mac → x ≠ a := by
      rintro x hx rfl
      exact nomatch hself.symm.trans hx
    rw [hother b (hne b hb)] at hb
    rw [hother d (hne d hd)] at hd
    exact h.unique b d mac hb hd
  · show t.itemcnt - 1 = (t.oldestToNewest.erase a).length
    rw [length_erase_of_mem ha, h.count]

/-- The oldest entry is taken out, and the other records stay. -/
theorem delete_oldest (h : TableInv c t) {rest : List ℕ} (hl : t.oldestToNewest = a :: rest) :
    ∃ e t', t.entry a = some e ∧ t.delete a = some t' ∧ TableInv c t' ∧ t'.oldestToNewest = rest ∧
      t.records = e.record :: t'.records := by
  obtain ⟨e, he⟩ := h.exists_entry (a := a) (by simp [hl])
  obtain ⟨t', hdel, h', hl', hentry⟩ := h.delete he
  rw [hl, erase_cons_head] at hl'
  have ha : a ∉ rest := (nodup_cons.mp (hl ▸ h.nodup)).1
  refine ⟨e, t', he, hdel, h', hl', ?_⟩
  rw [Table.records, hl, recordsAt_cons he, Table.records, hl', hentry, recordsAt_update ha]

theorem recordsAt_erase (h : TableInv c t) (he : t.entry a = some e) :
    recordsAt t.entry (t.oldestToNewest.erase a) = t.records.filter fun r => r.mac ≠ e.mac := by
  rw [h.nodup.erase_eq_filter, Table.records, recordsAt, recordsAt, filter_filterMap,
    filterMap_filter]
  refine filterMap_congr fun b hb => ?_
  obtain ⟨f, hf⟩ := h.exists_entry hb
  rw [hf]
  by_cases hba : b = a
  · subst hba
    obtain rfl := Option.some.inj (he.symm.trans hf)
    simp [Entry.record, Option.filter]
  · have hne : f.mac ≠ e.mac := by
      intro heq
      exact hba (h.unique b a e.mac (heq ▸ Table.macAt_of_entry hf) (Table.macAt_of_entry he))
    simp [hba, hne, Entry.record, Option.filter]

/-- An entry is used again: its record becomes the newest. -/
theorem refresh (h : TableInv c t) (he : t.entry a = some e) (port : ℤ) (time64 : UInt64) :
    ∃ t', t.refresh a port time64 = some t' ∧ TableInv c t' ∧
      t'.records = Recency.touch Record.mac t.records ⟨e.mac, port, time64⟩ := by
  have ha := h.mem_of_entry he
  let t' : Table := { t with
    entry := update t.entry a (some { e with port := port, time64 := time64 })
    oldestToNewest := t.oldestToNewest.erase a ++ [a] }
  -- the MAC addresses stay where they are
  have hmac : ∀ b, t'.macAt b = t.macAt b := by
    intro b
    by_cases hb : b = a
    · rw [hb, Table.macAt_of_entry he, Table.macAt_of_entry (update_self ..)]
    · simp [t', Table.macAt, hb]
  have hperm : (t.oldestToNewest.erase a ++ [a]).Perm t.oldestToNewest :=
    (perm_append_singleton a _).trans (perm_cons_erase ha).symm
  refine ⟨t', by rw [Table.refresh, he]; rfl,
    ⟨hperm.nodup_iff.mpr h.nodup, fun b => ?_, fun i b => ?_,
    h.chainNodup, fun b d mac hb hd => ?_, ?_⟩, ?_⟩
  · rw [hmac, ← h.alloc]
    exact hperm.mem_iff
  · rw [hmac]
    exact h.chain i b
  · rw [hmac] at hb hd
    exact h.unique b d mac hb hd
  · show t.itemcnt = (t.oldestToNewest.erase a ++ [a]).length
    rw [hperm.length_eq, h.count]
  · show recordsAt _ (t.oldestToNewest.erase a ++ [a]) = _
    rw [recordsAt_append, recordsAt_cons (update_self ..),
      recordsAt_update h.nodup.not_mem_erase, Recency.touch]
    exact congrArg (· ++ _) (h.recordsAt_erase he)

/-- A new entry: its record becomes the newest. -/
theorem add (h : TableInv c t) (ha : a ∉ t.oldestToNewest) (hno : ∀ b, t.macAt b ≠ some mac)
    (port : ℤ) (time64 : UInt64) :
    TableInv c (t.add c a mac port time64) ∧
      (t.add c a mac port time64).records = Recency.touch Record.mac t.records ⟨mac, port,
        time64⟩ := by
  have hself : (t.add c a mac port time64).macAt a = some mac := by simp [Table.add, Table.macAt]
  have hother : ∀ b, b ≠ a → (t.add c a mac port time64).macAt b = t.macAt b := by
    intro b hb
    simp [Table.add, Table.macAt, hb]
  have hnone : ∀ i, a ∉ t.buckets i := by
    intro i hi
    obtain ⟨mac', hmac', _⟩ := (h.chain i a).mp hi
    exact ha ((h.alloc a).mpr ⟨mac', hmac'⟩)
  refine ⟨⟨?_, fun b => ?_, fun i b => ?_, fun i => ?_, fun b d mac' hb hd => ?_, ?_⟩, ?_⟩
  · exact h.nodup.append (nodup_singleton a) (by simpa using ha)
  · show b ∈ t.oldestToNewest ++ [a] ↔ _
    rw [mem_append, mem_singleton]
    by_cases hb : b = a
    · simp [hb, hself]
    · simp [hb, hother b hb, h.alloc]
  · show b ∈ update t.buckets (c.bucketOf mac) (a :: t.buckets (c.bucketOf mac)) i ↔ _
    have hupd : b ∈ update t.buckets (c.bucketOf mac) (a :: t.buckets (c.bucketOf mac)) i ↔
        b ∈ t.buckets i ∨ b = a ∧ c.bucketOf mac = i := by
      by_cases hi : i = c.bucketOf mac
      · rw [hi, update_self, mem_cons]
        tauto
      · rw [update_of_ne hi]
        have := Ne.symm hi
        tauto
    rw [hupd, h.chain]
    by_cases hb : b = a
    · simp [hb, hself, ← h.chain, hnone]
    · simp [hb, hother b hb]
  · show (update t.buckets (c.bucketOf mac) (a :: t.buckets (c.bucketOf mac)) i).Nodup
    by_cases hi : i = c.bucketOf mac
    · rw [hi, update_self]
      exact nodup_cons.mpr ⟨hnone _, h.chainNodup _⟩
    · rw [update_of_ne hi]
      exact h.chainNodup i
  · by_cases hba : b = a
    · by_cases hda : d = a
      · rw [hba, hda]
      · rw [hba, hself] at hb
        rw [hother d hda, ← hb] at hd
        exact absurd hd (hno d)
    · by_cases hda : d = a
      · rw [hda, hself] at hd
        rw [hother b hba, ← hd] at hb
        exact absurd hb (hno b)
      · rw [hother b hba] at hb
        rw [hother d hda] at hd
        exact h.unique b d mac' hb hd
  · show t.itemcnt + 1 = (t.oldestToNewest ++ [a]).length
    rw [length_append, h.count, length_singleton]
  · rw [Recency.touch_eq_append (find_eq_none hno)]
    show recordsAt (update t.entry a (some ⟨mac, port, time64, c.bucketOf mac⟩))
      (t.oldestToNewest ++ [a]) = _
    rw [recordsAt_append, recordsAt_update ha, recordsAt_cons (update_self ..)]
    rfl

/-! ## The functions -/

theorem timeOutLoop {time64 : UInt64} {as : List ℕ} (h : TableInv c t)
    (hl : t.oldestToNewest = as) :
    ∃ t', Table.timeOutLoop time64 as t = some (t', (expire t.records time64).2) ∧ TableInv c t' ∧
      t'.records = (expire t.records time64).1 := by
  induction as generalizing t with
  | nil =>
    have hnil : t.records = [] := by rw [Table.records, hl]; rfl
    refine ⟨t, ?_, h, ?_⟩
    · rw [hnil]
      rfl
    · rw [hnil]
      rfl
  | cons a rest ih =>
    obtain ⟨e, t1, he, hdel, h1, hl1, hrec⟩ := h.delete_oldest hl
    rw [Table.timeOutLoop, he, Option.bind_some, hrec]
    by_cases hold : e.time64 + timeout < time64
    · obtain ⟨t', hloop, h', hrec'⟩ := ih h1 hl1
      have hexp : e.record.expired time64 = true := decide_eq_true hold
      refine ⟨t', ?_, h', ?_⟩
      · rw [if_pos hold, hdel, Option.bind_some, hloop, Option.map_some, expire, expire,
          takeWhile_cons_of_pos hexp]
        rfl
      · rw [hrec', expire, expire, dropWhile_cons_of_pos hexp]
    · have hexp : ¬e.record.expired time64 = true := fun hexp => hold (of_decide_eq_true hexp)
      refine ⟨t, ?_, h, ?_⟩
      · rw [if_neg hold, expire, takeWhile_cons_of_neg hexp]
        rfl
      · rw [hrec, expire, dropWhile_cons_of_neg hexp]

/-- Taking out old entries does to the records what `expire` does. -/
theorem timeOut (h : TableInv c t) (time64 : UInt64) :
    ∃ t', t.timeOut time64 = some (t', (expire t.records time64).2) ∧ TableInv c t' ∧
      t'.records = (expire t.records time64).1 := h.timeOutLoop rfl

theorem makeRoom (h : TableInv c t) :
    ∃ t', t.makeRoom c = some (t', shortages c.bucketcnt t.records) ∧ TableInv c t' ∧
      t'.records = Recency.evict c.bucketcnt t.records := by
  rw [Table.makeRoom, shortages, Recency.evicted, Recency.evict, h.length_records]
  by_cases hfull : c.bucketcnt ≤ t.itemcnt
  · rw [if_pos hfull, if_pos hfull, if_pos hfull]
    cases hl : t.oldestToNewest with
    | nil =>
      have hpos := c.bucketcnt_pos
      rw [h.count, hl, length_nil] at hfull
      omega
    | cons a rest =>
      obtain ⟨e, t', he, hdel, h', hl', hrec⟩ := h.delete_oldest hl
      refine ⟨t', ?_, h', by rw [hrec, tail_cons]⟩
      dsimp only
      rw [he, Option.bind_some, hdel, hrec]
      rfl
  · rw [if_neg hfull, if_neg hfull, if_neg hfull]
    exact ⟨t, rfl, h, rfl⟩

/-- Learning does to the records what `learn` does. -/
theorem portPut (h : TableInv c t) (mac : Mac) (port : ℤ) (time64 : UInt64)
    (malloc : Option Malloc) :
    ∃ t', t.portPut c mac port time64 malloc =
        some (t', (learn c.bucketcnt t.records ⟨mac, port, time64⟩ malloc.isSome).2) ∧
          TableInv c t' ∧
      t'.records = (learn c.bucketcnt t.records ⟨mac, port, time64⟩ malloc.isSome).1 := by
  rw [Table.portPut, learn]
  rcases h.lookup_spec mac with ⟨hl, hf⟩ | ⟨a, e, hl, he, rfl, hf⟩
  · obtain ⟨t1, hroom, h1, hrec1⟩ := h.makeRoom
    have hno1 : ∀ b, t1.macAt b ≠ some mac := by
      intro b hb
      obtain ⟨e, he, rfl⟩ := Table.macAt_eq_some.mp hb
      have hsome := h1.find_of_entry he
      rw [hrec1, Recency.find_sublist_eq_none (Recency.evict_sublist _ _) hf] at hsome
      cases hsome
    rw [hl, Option.bind_some, hf]
    dsimp only
    rw [hroom, Option.map_some]
    cases malloc with
    | none => exact ⟨t1, rfl, h1, hrec1⟩
    | some m =>
      obtain ⟨h', hrec'⟩ := h1.add (m.fresh t1.oldestToNewest) hno1 port time64
      exact ⟨_, rfl, h', by rw [hrec', hrec1]; rfl⟩
  · obtain ⟨t', href, h', hrec'⟩ := h.refresh he port time64
    rw [hl, Option.bind_some, hf]
    dsimp only
    rw [href]
    exact ⟨t', rfl, h', hrec'⟩

end TableInv

/-! ## A small table -/

/-- A table with two buckets. -/
def twoBuckets : Config := ⟨.little, fun mac => (mac 5).toUInt32, 2, by decide⟩

/-- `malloc` that returns an address behind all that are in use. -/
def nextMalloc : Malloc where
  addr := fun used => used.foldr max 0 + 1
  fresh := by
    intro used hmem
    have hle : ∀ (l : List ℕ), ∀ a ∈ l, a ≤ l.foldr max 0 := by
      intro l
      induction l with
      | nil => simp
      | cons b l ih =>
        intro a ha
        rcases mem_cons.mp ha with rfl | ha
        · exact le_max_left _ _
        · exact (ih a ha).trans (le_max_right _ _)
    exact absurd (hle used _ hmem) (Nat.not_succ_le_self _)

end Pptk.Ldp.Switch
