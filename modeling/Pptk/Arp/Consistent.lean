import Pptk.Arp.Arp
import Pptk.Timer.LinkHeapCorrect

/-!
# ARP cache: the table is consistent

The hash table, the packet lists and the heap of timers agree with each other and with the log of
the calls: a table invariant (`TableInv`) that every call keeps.

Main results: `TableInv.change`, `TableInv.insert`, `TableInv.expire`, `TableInv.step` and
`arp_cache_consistent`.
-/

namespace Pptk.Arp

open Timer Lib Function List Option

/-! ## What happened -/

/-- The IP address of the entry. -/
def ArpEvent.ip : ArpEvent → UInt32
  | put ip _ _ => ip
  | packet ip _ _ => ip
  | expiry ip => ip

/-- The MAC address of the latest put for an IP address since its entry last expired. -/
def lastPut : List ArpEvent → UInt32 → Option Mac
  | [], _ => none
  | .put ip' mac _ :: evs, ip => if ip' = ip then some mac else lastPut evs ip
  | .packet _ _ _ :: evs, ip => lastPut evs ip
  | .expiry ip' :: evs, ip => if ip' = ip then none else lastPut evs ip

/-- The time of the latest put or put-packet for an IP address since its entry last expired. -/
def lastUse : List ArpEvent → UInt32 → Option UInt64
  | [], _ => none
  | .put ip' _ time64 :: evs, ip => if ip' = ip then some time64 else lastUse evs ip
  | .packet ip' _ time64 :: evs, ip => if ip' = ip then some time64 else lastUse evs ip
  | .expiry ip' :: evs, ip => if ip' = ip then none else lastUse evs ip

theorem lastPut_of_ne {ev : ArpEvent} {ip : UInt32} (h : ev.ip ≠ ip) (evs : List ArpEvent) :
    lastPut (ev :: evs) ip = lastPut evs ip := by
  cases ev with
  | put ip' mac time64 => exact if_neg h
  | packet ip' pkt time64 => rfl
  | expiry ip' => exact if_neg h

theorem lastUse_of_ne {ev : ArpEvent} {ip : UInt32} (h : ev.ip ≠ ip) (evs : List ArpEvent) :
    lastUse (ev :: evs) ip = lastUse evs ip := by
  cases ev with
  | put ip' mac time64 => exact if_neg h
  | packet ip' pkt time64 => exact if_neg h
  | expiry ip' => exact if_neg h

/-! ## Invariant -/

/-- The time at which the timer of an entry is due. -/
def ArpTable.due (s : ArpTable) (events : List ArpEvent) (a : ℕ) : Option ℕ :=
  (s.entry a).bind fun e => (lastUse events e.ip).map expiryTime

/-- The entries agree with what happened. -/
structure EntryInv (entry : ℕ → Option ArpEntry) (events : List ArpEvent) : Prop where
  unique : ∀ a b e f, entry a = some e → entry b = some f → e.ip = f.ip → a = b
  short : ∀ a e, entry a = some e → e.list.length ≤ maxPackets
  used : ∀ a e, entry a = some e → lastUse events e.ip ≠ none
  present : ∀ a e, entry a = some e → lastPut events e.ip = if e.valid then some e.mac else none
  absent : ∀ ip, (∀ a e, entry a = some e → e.ip ≠ ip) → lastPut events ip = none

/-- The parts of the table agree. -/
structure TableInv (ipHash : UInt32 → UInt32) (events : List ArpEvent) (s : ArpTable) : Prop where
  entries : EntryInv s.entry events
  chain : ∀ i a, a ∈ s.buckets i ↔ ∃ e, s.entry a = some e ∧ bucketOf (ipHash e.ip) = i
  nodup : ∀ i, (s.buckets i).Nodup
  timers : ∃ arr, Holds s.timers (s.due events) arr ∧ s.itemcnt = arr.length

section Entries

variable {entry : ℕ → Option ArpEntry} {events : List ArpEvent} {a : ℕ} {e : ArpEntry}
  {ev : ArpEvent}

theorem EntryInv.set (h : EntryInv entry events)
    (hother : ∀ b f, b ≠ a → entry b = some f → f.ip ≠ e.ip)
    (hsame : ∀ f, entry a = some f → f.ip = e.ip) (hev : ev.ip = e.ip)
    (hlen : e.list.length ≤ maxPackets) (huse : lastUse (ev :: events) e.ip ≠ none)
    (hput : lastPut (ev :: events) e.ip = if e.valid then some e.mac else none) :
    EntryInv (update entry a (some e)) (ev :: events) := by
  -- every entry is the new one or an old one of another IP address
  have hcases : ∀ b f, update entry a (some e) b = some f →
      b = a ∧ f = e ∨ b ≠ a ∧ entry b = some f ∧ ev.ip ≠ f.ip := by
    intro b f hf
    rcases eq_or_ne b a with rfl | hb
    · rw [update_self] at hf
      exact .inl ⟨rfl, (some.inj hf).symm⟩
    · rw [update_of_ne hb] at hf
      exact .inr ⟨hb, hf, fun heq => hother b f hb hf (heq.symm.trans hev)⟩
  constructor
  · intro b c f g hf hg hip
    rcases hcases b f hf with ⟨rfl, rfl⟩ | ⟨-, hf, hfne⟩
    · rcases hcases c g hg with ⟨rfl, rfl⟩ | ⟨-, -, hgne⟩
      · rfl
      · exact absurd (hev.trans hip) hgne
    · rcases hcases c g hg with ⟨rfl, rfl⟩ | ⟨-, hg, -⟩
      · exact absurd (hev.trans hip.symm) hfne
      · exact h.unique b c f g hf hg hip
  · intro b f hf
    rcases hcases b f hf with ⟨rfl, rfl⟩ | ⟨-, hf, -⟩
    · exact hlen
    · exact h.short b f hf
  · intro b f hf
    rcases hcases b f hf with ⟨rfl, rfl⟩ | ⟨-, hf, hne⟩
    · exact huse
    · rw [lastUse_of_ne hne]
      exact h.used b f hf
  · intro b f hf
    rcases hcases b f hf with ⟨rfl, rfl⟩ | ⟨-, hf, hne⟩
    · exact hput
    · rw [lastPut_of_ne hne]
      exact h.present b f hf
  · intro ip hno
    have hne : e.ip ≠ ip := hno a e (update_self ..)
    rw [lastPut_of_ne (hev ▸ hne)]
    refine h.absent ip fun b f hf => ?_
    rcases eq_or_ne b a with rfl | hb
    · rw [hsame f hf]
      exact hne
    · exact hno b f (by rw [update_of_ne hb]; exact hf)

theorem EntryInv.expire (h : EntryInv entry events) (he : entry a = some e) :
    EntryInv (update entry a none) (.expiry e.ip :: events) := by
  have hcases : ∀ b f, update entry a none b = some f →
      entry b = some f ∧ (ArpEvent.expiry e.ip).ip ≠ f.ip := by
    intro b f hf
    rcases eq_or_ne b a with rfl | hb
    · rw [update_self] at hf
      cases hf
    · rw [update_of_ne hb] at hf
      exact ⟨hf, fun heq => hb (h.unique b a f e hf he heq.symm)⟩
  constructor
  · intro b c f g hf hg hip
    exact h.unique b c f g (hcases b f hf).1 (hcases c g hg).1 hip
  · intro b f hf
    exact h.short b f (hcases b f hf).1
  · intro b f hf
    obtain ⟨hf, hne⟩ := hcases b f hf
    rw [lastUse_of_ne hne]
    exact h.used b f hf
  · intro b f hf
    obtain ⟨hf, hne⟩ := hcases b f hf
    rw [lastPut_of_ne hne]
    exact h.present b f hf
  · intro ip hno
    by_cases hip : (ArpEvent.expiry e.ip).ip = ip
    · exact if_pos hip
    · rw [lastPut_of_ne hip]
      refine h.absent ip fun b f hf => ?_
      rcases eq_or_ne b a with rfl | hb
      · rw [← some.inj (he.symm.trans hf)]
        exact hip
      · exact hno b f (by rw [update_of_ne hb]; exact hf)

end Entries

variable {ipHash : UInt32 → UInt32} {events : List ArpEvent} {s : ArpTable}

theorem ArpTable.lookup_spec (ip : UInt32) {l : List ℕ} (hl : ∀ a ∈ l, s.entry a ≠ none) :
    (∃ a ∈ l, ∃ e, s.entry a = some e ∧ e.ip = ip ∧ s.lookup ip l = some (some a)) ∨
      (∀ a ∈ l, ∀ e, s.entry a = some e → e.ip ≠ ip) ∧ s.lookup ip l = some none := by
  induction l with
  | nil => exact .inr ⟨by simp, rfl⟩
  | cons a l ih =>
    obtain ⟨e, he⟩ := ne_none_iff_exists'.mp (hl a (by simp))
    rw [ArpTable.lookup, he, bind_some]
    by_cases hip : e.ip = ip
    · exact .inl ⟨a, by simp, e, he, hip, if_pos hip⟩
    · rw [if_neg hip]
      rcases ih fun b hb => hl b (by simp [hb]) with ⟨b, hb, hrest⟩ | ⟨hno, hrest⟩
      · exact .inl ⟨b, by simp [hb], hrest⟩
      · refine .inr ⟨fun b hb f hf => ?_, hrest⟩
        rcases mem_cons.mp hb with rfl | hb
        · rw [← some.inj (he.symm.trans hf)]
          exact hip
        · exact hno b hb f hf

/-- The lookup finds the entry of an IP address, if there is one. -/
theorem TableInv.getAcceptInvalid_spec (h : TableInv ipHash events s) (ip : UInt32) :
    (∃ a e, s.entry a = some e ∧ e.ip = ip ∧ s.getAcceptInvalid ipHash ip = some (some a)) ∨
      (∀ a e, s.entry a = some e → e.ip ≠ ip) ∧ s.getAcceptInvalid ipHash ip = some none := by
  have hall : ∀ a ∈ s.buckets (bucketOf (ipHash ip)), s.entry a ≠ none := by
    intro a ha
    obtain ⟨e, he, -⟩ := (h.chain _ a).mp ha
    rw [he]
    exact some_ne_none e
  rcases ArpTable.lookup_spec ip hall with ⟨a, -, e, he, hip, hget⟩ | ⟨hno, hget⟩
  · exact .inl ⟨a, e, he, hip, hget⟩
  · refine .inr ⟨fun a e he hip => ?_, hget⟩
    exact hno a ((h.chain _ a).mpr ⟨e, he, by rw [hip]⟩) e he hip

/-- A timer is in the heap exactly if its entry is there. -/
theorem TableInv.due_ne_none (h : TableInv ipHash events s) (a : ℕ) :
    s.due events a ≠ none ↔ s.entry a ≠ none := by
  unfold ArpTable.due
  cases he : s.entry a with
  | none => simp
  | some e =>
    have := h.entries.used a e he
    simp [this]

/-! ## Changes of the table -/

section Changes

variable {a : ℕ} {e : ArpEntry} {time64 : UInt64} {ev : ArpEvent}

theorem ArpTable.due_update (hother : ∀ b f, b ≠ a → s.entry b = some f → f.ip ≠ ev.ip)
    {new : Option ArpEntry} {timers : LinkHeap} {buckets : ℕ → List ℕ} {itemcnt : ℕ} :
    ArpTable.due ⟨buckets, itemcnt, update s.entry a new, timers⟩ (ev :: events) =
      update (s.due events) a (new.bind fun e =>
        (lastUse (ev :: events) e.ip).map expiryTime) := by
  funext b
  unfold ArpTable.due
  dsimp only
  rcases eq_or_ne b a with rfl | hb
  · rw [update_self, update_self]
  · rw [update_of_ne hb, update_of_ne hb]
    cases hf : s.entry b with
    | none => rfl
    | some f =>
      rw [bind_some, bind_some, lastUse_of_ne (hother b f hb hf).symm]

/-- The entry of an IP address is changed as `ev` asks for, and its timer is set. -/
theorem TableInv.change (h : TableInv ipHash events s) (he : s.entry a = some e) (e' : ArpEntry)
    (ev : ArpEvent) (hip : e'.ip = e.ip) (hev : ev.ip = e'.ip) (hlen : e'.list.length ≤ maxPackets)
    (hput : lastPut (ev :: events) e'.ip = if e'.valid then some e'.mac else none)
    (huse : lastUse (ev :: events) e'.ip = some time64) :
    ∃ s', s.change a e' time64 = some s' ∧ TableInv ipHash (ev :: events) s' ∧
      s'.entry = update s.entry a (some e') := by
  have hother : ∀ b f, b ≠ a → s.entry b = some f → f.ip ≠ ev.ip := by
    intro b f hb hf heq
    exact hb (h.entries.unique b a f e hf he (heq.trans (hev.trans hip)))
  obtain ⟨arr, hholds, hcount⟩ := h.timers
  have hdue : s.due events a ≠ none := (h.due_ne_none a).mpr (by rw [he]; exact some_ne_none e)
  have hallowed : (LinkOp.modify a (expiryTime time64)).Allowed (s.due events) := hdue
  obtain ⟨timers, arr', hmodify, hholds'⟩ := LinkOp.step hholds hallowed
  rw [LinkOp.apply] at hmodify
  rw [ArpTable.change, hmodify]
  refine ⟨_, rfl, ⟨?_, ?_, h.nodup, arr', ?_, ?_⟩, rfl⟩
  · refine h.entries.set (fun b f hb hf => hev ▸ hother b f hb hf) (fun f hf => ?_) hev hlen ?_ hput
    · rw [← some.inj (he.symm.trans hf), hip]
    · rw [huse]
      exact some_ne_none _
  · intro i b
    rw [h.chain]
    dsimp only
    rcases eq_or_ne b a with rfl | hb
    · simp [he, hip]
    · rw [update_of_ne hb]
  · rw [ArpTable.due_update hother, bind_some, huse]
    exact hholds'
  · -- the heap has the same timers
    rw [hcount]
    refine (List.Perm.length_eq ?_).symm
    refine (perm_ext_iff_of_nodup hholds'.1.nodup hholds.1.nodup).mpr fun b => ?_
    rw [hholds'.2.2.1, hholds.2.2.1]
    rcases eq_or_ne b a with rfl | hb
    · simp [LinkOp.pending, hdue]
    · simp [LinkOp.pending, hb]

/-- An entry is made for an IP address that has none, as `ev` asks for, and its timer is added. -/
theorem TableInv.insert (h : TableInv ipHash events s) (hfresh : s.entry a = none) (e : ArpEntry)
    (ev : ArpEvent) (hnew : ∀ b f, s.entry b = some f → f.ip ≠ e.ip) (hev : ev.ip = e.ip)
    (hlen : e.list.length ≤ maxPackets)
    (hput : lastPut (ev :: events) e.ip = if e.valid then some e.mac else none)
    (huse : lastUse (ev :: events) e.ip = some time64) :
    ∃ s', s.insert ipHash a e time64 = some s' ∧ TableInv ipHash (ev :: events) s' ∧
      s'.entry = update s.entry a (some e) := by
  have hother : ∀ b f, b ≠ a → s.entry b = some f → f.ip ≠ ev.ip :=
    fun b f _ hf => hev ▸ hnew b f hf
  obtain ⟨arr, hholds, hcount⟩ := h.timers
  have hdue : s.due events a = none := by
    rw [ArpTable.due, hfresh]
    rfl
  have hnot : ∀ i, a ∉ s.buckets i := by
    intro i ha
    obtain ⟨f, hf, -⟩ := (h.chain i a).mp ha
    rw [hfresh] at hf
    cases hf
  have hallowed : (LinkOp.add a (expiryTime time64)).Allowed (s.due events) := hdue
  obtain ⟨timers, arr', hadd, hholds'⟩ := LinkOp.step hholds hallowed
  rw [LinkOp.apply] at hadd
  rw [ArpTable.insert, hadd]
  refine ⟨_, rfl, ⟨?_, ?_, ?_, arr', ?_, ?_⟩, rfl⟩
  · refine h.entries.set (fun b f _ hf => hnew b f hf) (fun f hf => ?_) hev hlen ?_ hput
    · rw [hfresh] at hf
      cases hf
    · rw [huse]
      exact some_ne_none _
  · intro i b
    dsimp only
    rcases eq_or_ne i (bucketOf (ipHash e.ip)) with rfl | hi
    · rw [update_self, mem_cons, h.chain]
      rcases eq_or_ne b a with rfl | hb
      · simp
      · rw [update_of_ne hb]
        simp [hb]
    · rw [update_of_ne hi, h.chain]
      rcases eq_or_ne b a with rfl | hb
      · simp [hfresh, Ne.symm hi]
      · rw [update_of_ne hb]
  · intro i
    dsimp only
    rcases eq_or_ne i (bucketOf (ipHash e.ip)) with rfl | hi
    · rw [update_self]
      exact nodup_cons.mpr ⟨hnot _, h.nodup _⟩
    · rw [update_of_ne hi]
      exact h.nodup i
  · rw [ArpTable.due_update hother, bind_some, huse]
    exact hholds'
  · -- the heap has one timer more
    have hnotin : a ∉ arr := fun ha => (hholds.2.2.1 a).mp ha hdue
    have hperm : arr'.Perm (a :: arr) := by
      refine (perm_ext_iff_of_nodup hholds'.1.nodup
        (nodup_cons.mpr ⟨hnotin, hholds.1.nodup⟩)).mpr fun b => ?_
      rw [hholds'.2.2.1, mem_cons, hholds.2.2.1]
      rcases eq_or_ne b a with rfl | hb
      · simp [LinkOp.pending]
      · simp [LinkOp.pending, hb]
    rw [hperm.length_eq, length_cons, hcount]

/-- The entry and its timer go. -/
theorem TableInv.expire (h : TableInv ipHash events s) (he : s.entry a = some e) :
    ∃ timers s', s.timers.remove a = some timers ∧ ArpTable.delete { s with timers := timers } a =
      some s' ∧
      TableInv ipHash (.expiry e.ip :: events) s' ∧ s'.entry = update s.entry a none := by
  have hother : ∀ b f, b ≠ a → s.entry b = some f → f.ip ≠ (ArpEvent.expiry e.ip).ip :=
    fun b f hb hf heq => hb (h.entries.unique b a f e hf he heq)
  obtain ⟨arr, hholds, hcount⟩ := h.timers
  have hdue : s.due events a ≠ none := (h.due_ne_none a).mpr (by rw [he]; exact some_ne_none e)
  have hallowed : (LinkOp.remove a).Allowed (s.due events) := hdue
  obtain ⟨timers, arr', hremove, hholds'⟩ := LinkOp.step hholds hallowed
  -- the heap has one timer less
  have hperm : arr.Perm (a :: arr') := by
    have hnotin : a ∉ arr' := fun ha => (hholds'.2.2.1 a).mp ha (update_self ..)
    refine (perm_ext_iff_of_nodup hholds.1.nodup
      (nodup_cons.mpr ⟨hnotin, hholds'.1.nodup⟩)).mpr fun b => ?_
    rw [hholds.2.2.1, mem_cons, hholds'.2.2.1]
    rcases eq_or_ne b a with rfl | hb
    · simp [hdue]
    · simp [LinkOp.pending, hb]
  have hlen := hperm.length_eq
  rw [length_cons] at hlen
  have hpos : s.itemcnt ≠ 0 := by omega
  refine ⟨timers, _, hremove, if_neg hpos, ⟨h.entries.expire he, ?_, ?_, arr', ?_, ?_⟩, rfl⟩
  · intro i b
    dsimp only
    rw [(h.nodup i).mem_erase_iff, h.chain]
    rcases eq_or_ne b a with rfl | hb
    · simp
    · rw [update_of_ne hb]
      simp [hb]
  · exact fun i => (h.nodup i).erase a
  · rw [ArpTable.due_update hother]
    exact hholds'
  · show s.itemcnt - 1 = arr'.length
    omega

end Changes

/-! ## Calls -/

theorem evict_eq (list : List ℕ) :
    list = (evict list).2 ++ (evict list).1 ∧ (evict list).1.length < maxPackets := by
  induction list with
  | nil => exact ⟨rfl, by decide⟩
  | cons pkt list ih =>
    rw [evict]
    split_ifs with hfull
    · refine ⟨?_, ih.2⟩
      rw [cons_append, ← ih.1]
    · exact ⟨rfl, Nat.lt_of_not_le hfull⟩

section Calls

variable {c : ArpCache} {addr : ℕ}

theorem put_spec (h : TableInv ipHash events c.table) (haddr : c.table.entry addr = none)
    (port : Bool) (ip : UInt32) (mac : Mac) (time64 : UInt64) :
    ∃ c', c.put ipHash port ip mac time64 addr = some c' ∧
      TableInv ipHash (.put ip mac time64 :: events) c'.table ∧
      ((∃ a e, c.table.entry a = some e ∧ e.ip = ip ∧
          c'.table.entry = update c.table.entry a
            (some { e with mac := mac, valid := true, list := [] }) ∧
          c'.packets = c.packets.drain port mac e.list) ∨
        (∀ a e, c.table.entry a = some e → e.ip ≠ ip) ∧
          c'.table.entry = update c.table.entry addr (some ⟨ip, mac, true, []⟩) ∧
          c'.packets = c.packets) := by
  unfold ArpCache.put
  rcases h.getAcceptInvalid_spec ip with ⟨a, e, he, hip, hget⟩ | ⟨hno, hget⟩
  · obtain ⟨table, htable, hinv, hentry⟩ :=
      h.change he { e with mac := mac, valid := true, list := [] }
      (.put ip mac time64) rfl hip.symm (Nat.zero_le _) (if_pos hip.symm) (if_pos hip.symm)
    refine ⟨⟨table, c.packets.drain port mac e.list⟩, ?_, hinv, .inl ⟨a, e, he, hip, hentry, rfl⟩⟩
    rw [hget]
    simp only [bind_some, he]
    rw [htable]
    rfl
  · obtain ⟨table, htable, hinv, hentry⟩ :=
      h.insert haddr ⟨ip, mac, true, []⟩ (.put ip mac time64) hno rfl
      (Nat.zero_le _) (if_pos rfl) (if_pos rfl)
    refine ⟨⟨table, c.packets⟩, ?_, hinv, .inr ⟨hno, hentry, rfl⟩⟩
    rw [hget]
    simp only [bind_some]
    rw [htable]
    rfl

theorem putPacket_spec (h : TableInv ipHash events c.table) (haddr : c.table.entry addr = none)
    (ip : UInt32) (pkt : ℕ) (time64 : UInt64) :
    ∃ c', c.putPacket ipHash ip pkt time64 addr = some c' ∧
      TableInv ipHash (.packet ip pkt time64 :: events) c'.table ∧
      ((∃ a e, c.table.entry a = some e ∧
          c'.table.entry = update c.table.entry a
            (some { e with list := (evict e.list).1 ++ [pkt] }) ∧
          c'.packets = { c.packets with freed := c.packets.freed ++ (evict e.list).2 }) ∨
        c'.table.entry = update c.table.entry addr (some ⟨ip, fun _ => 0, false, [pkt]⟩) ∧
          c'.packets = c.packets) := by
  unfold ArpCache.putPacket
  rcases h.getAcceptInvalid_spec ip with ⟨a, e, he, hip, hget⟩ | ⟨hno, hget⟩
  · have hlen : ((evict e.list).1 ++ [pkt]).length ≤ maxPackets := by
      rw [length_append]
      exact (evict_eq e.list).2
    obtain ⟨table, htable, hinv, hentry⟩ := h.change he { e with list := (evict e.list).1 ++ [pkt] }
      (.packet ip pkt time64) rfl hip.symm hlen (h.entries.present a e he) (if_pos hip.symm)
    refine ⟨⟨table, _⟩, ?_, hinv, .inl ⟨a, e, he, hentry, rfl⟩⟩
    rw [hget]
    simp only [bind_some, he]
    rw [htable]
    rfl
  · obtain ⟨table, htable, hinv, hentry⟩ :=
      h.insert haddr ⟨ip, fun _ => 0, false, [pkt]⟩ (.packet ip pkt time64)
      hno rfl (show 1 ≤ maxPackets by decide) (h.entries.absent ip hno) (if_pos rfl)
    refine ⟨⟨table, _⟩, ?_, hinv, .inr ⟨hentry, rfl⟩⟩
    rw [hget]
    simp only [bind_some]
    rw [htable]
    rfl

theorem expire_spec (h : TableInv ipHash events c.table) {a : ℕ}
    (ha : c.table.timers.nextExpiryTimer = some a) :
    ∃ c' e, c.expire = some c' ∧ TableInv ipHash (.expiry e.ip :: events) c'.table ∧
      c.table.entry a = some e ∧
      c'.table.entry = update c.table.entry a none ∧
      c'.packets = c.packets.freeAll e.list := by
  obtain ⟨arr, hholds, -⟩ := h.timers
  have hmem : a ∈ arr := hholds.1.linkedOn.root_mem a ha
  obtain ⟨e, he⟩ := ne_none_iff_exists'.mp ((h.due_ne_none a).mp ((hholds.2.2.1 a).mp hmem))
  obtain ⟨timers, table, hremove, hdelete, hinv, hentry⟩ := h.expire he
  refine ⟨⟨table, c.packets.freeAll e.list⟩, e, ?_, hinv, he, hentry, rfl⟩
  rw [ArpCache.expire, ha, bind_some, hremove, bind_some, ArpCache.entryExpiryFn, he,
    bind_some, hdelete]
  rfl

theorem event_expire {a : ℕ} {e : ArpEntry} (ha : c.table.timers.nextExpiryTimer = some a)
    (he : c.table.entry a = some e) (now : UInt64) :
    (ArpCall.expire now).event c = [.expiry e.ip] := by
  simp [ArpCall.event, ha, he]

/-- Every call that is allowed succeeds, and the table agrees with the log that has the call in it.
-/
theorem TableInv.step (h : TableInv ipHash events c.table) {call : ArpCall}
    (hcall : call.Allowed (c, events)) :
    ∃ c', c.step ipHash call = some c' ∧ TableInv ipHash (call.event c ++ events) c'.table := by
  cases call with
  | put port ip mac time64 addr =>
    obtain ⟨c', hput, hinv, -⟩ := put_spec h hcall port ip mac time64
    exact ⟨c', hput, hinv⟩
  | putPacket ip pkt time64 addr =>
    obtain ⟨c', hput, hinv, -⟩ := putPacket_spec h hcall.1 ip pkt time64
    exact ⟨c', hput, hinv⟩
  | expire now =>
    obtain ⟨a, ha, -⟩ := hcall
    obtain ⟨c', e, hexpire, hinv, he, -⟩ := expire_spec h ha
    rw [event_expire ha he]
    exact ⟨c', hexpire, hinv⟩

theorem arpStep_eq {call : ArpCall} {c' : ArpCache} (h : c.step ipHash call = some c') :
    arpStep ipHash (c, events) call = some (c', call.event c ++ events) := by
  rw [arpStep, logged, h]
  rfl

end Calls

/-! ## Runs -/

/-- The table holds at most one entry for an IP address, the timers in the heap are those of the
entries, each once and set to the time of the last use plus 30 seconds, and the lookup finds what
was put, by the log of the calls. -/
structure Consistent (ipHash : UInt32 → UInt32) (events : List ArpEvent) (s : ArpTable) : Prop where
  unique : ∀ a b e f, s.entry a = some e → s.entry b = some f → e.ip = f.ip → a = b
  short : ∀ a e, s.entry a = some e → e.list.length ≤ maxPackets
  table : ∀ a, s.entry a ≠ none ↔ ∃ i, a ∈ s.buckets i
  timers : ∃ arr, s.timers.Rep arr ∧ s.timers.Ordered arr ∧ (∀ a, a ∈ arr ↔ s.entry a ≠ none) ∧
    s.itemcnt = arr.length
  times : ∀ a e, s.entry a = some e → ∃ t, lastUse events e.ip = some t ∧
    s.timers.time64 a = expiryTime t
  get : ∀ ip, ∃ r, s.get ipHash ip = some r ∧ r.map ArpEntry.mac = lastPut events ip ∧
    ∀ e, r = some e → e.ip = ip

theorem TableInv.consistent (h : TableInv ipHash events s) : Consistent ipHash events s := by
  obtain ⟨arr, ⟨hrep, hordered, hmem, htime⟩, hcount⟩ := h.timers
  refine ⟨h.entries.unique, h.entries.short, fun a => ?_,
    ⟨arr, hrep, hordered, fun a => ?_, hcount⟩, fun a e he => ?_, fun ip => ?_⟩
  · constructor
    · intro ha
      obtain ⟨e, he⟩ := ne_none_iff_exists'.mp ha
      exact ⟨_, (h.chain _ a).mpr ⟨e, he, rfl⟩⟩
    · rintro ⟨i, hi⟩
      obtain ⟨e, he, -⟩ := (h.chain i a).mp hi
      rw [he]
      exact some_ne_none e
  · rw [hmem, h.due_ne_none]
  · obtain ⟨t, ht⟩ := ne_none_iff_exists'.mp (h.entries.used a e he)
    refine ⟨t, ht, htime a _ ?_⟩
    rw [ArpTable.due, he, bind_some, ht]
    rfl
  · unfold ArpTable.get
    rcases h.getAcceptInvalid_spec ip with ⟨a, e, he, hip, hget⟩ | ⟨hno, hget⟩
    · refine ⟨if e.valid then some e
        else none, by simp only [hget, bind_some, he, map_some], ?_, ?_⟩
      · rw [← hip, h.entries.present a e he]
        split_ifs <;> rfl
      · intro f hf
        split_ifs at hf
        rw [← some.inj hf]
        exact hip
    · refine ⟨none, by simp only [hget, bind_some], (h.entries.absent ip hno).symm,
        fun e he => ?_⟩
      cases he

theorem TableInv.init (ipHash : UInt32 → UInt32) (timers : LinkHeap) (dst : ℕ → Mac) :
    TableInv ipHash [] (arpCacheInit timers dst).table := by
  have hentry : ∀ a, (arpCacheInit timers dst).table.entry a = none := fun _ => rfl
  refine ⟨⟨?_, ?_, ?_, ?_, fun _ _ => rfl⟩, ?_, fun _ => nodup_nil, [], Holds.init timers, rfl⟩
  · intro a b e f he
    rw [hentry] at he
    cases he
  · intro a e he
    rw [hentry] at he
    cases he
  · intro a e he
    rw [hentry] at he
    cases he
  · intro a e he
    rw [hentry] at he
    cases he
  · intro i a
    simp [arpCacheInit]

/-- A run of such calls is possible, and keeps the invariant. -/
theorem exists_run_tableInv {ipHash : UInt32 → UInt32} {timers : LinkHeap} {dst : ℕ → Mac}
    {calls : List ArpCall}
    (hcalls : Along (arpStep ipHash) (fun x call => call.Allowed x)
      (arpCacheInit timers dst, []) calls) :
    ∃ x, run (arpStep ipHash) (arpCacheInit timers dst, []) calls = some x ∧
      TableInv ipHash x.2 x.1.table := by
  refine hcalls.run (P := fun x => TableInv ipHash x.2 x.1.table) (fun x call h hcall => ?_)
    (TableInv.init ipHash timers dst)
  obtain ⟨c', hstep, hinv⟩ := h.step hcall
  exact ⟨_, arpStep_eq hstep, hinv⟩

/-- Every sequence of calls succeeds, and leaves a table that is consistent with the calls. -/
theorem arp_cache_consistent (ipHash : UInt32 → UInt32) (timers : LinkHeap) (dst : ℕ → Mac)
    (calls : List ArpCall)
    (hcalls : Along (arpStep ipHash) (fun x call => call.Allowed x)
      (arpCacheInit timers dst, []) calls) :
    ∃ c events, run (arpStep ipHash) (arpCacheInit timers dst, []) calls = some (c, events) ∧
      Consistent ipHash events c.table := by
  obtain ⟨⟨c, events⟩, hrun, hinv⟩ := exists_run_tableInv hcalls
  exact ⟨c, events, hrun, hinv.consistent⟩

/-- A packet is queued for 10.0.0.1, its MAC address is put, 30 seconds later the entry expires, and
the MAC address of 10.0.0.2 is put. -/
def shortLife : List ArpCall :=
  [.putPacket 0x0A000001 7 5 100, .put true 0x0A000001 (fun _ => 0x42) 6 101, .expire 30000006,
    .put true 0x0A000002 (fun _ => 0x43) 30000007 102]

/-- An empty cache. -/
def emptyCache : ArpCache :=
  arpCacheInit ⟨fun _ => 0, fun _ => none, fun _ => none, fun _ => none, none, 0⟩ fun _ _ => 0

theorem shortLife_allowed :
    Along (arpStep id) (fun x call => call.Allowed x) (emptyCache, []) shortLife := by
  refine ⟨⟨rfl, by decide⟩, fun x1 h1 => ?_⟩
  obtain rfl := some.inj h1
  refine ⟨rfl, fun x2 h2 => ?_⟩
  obtain rfl := some.inj h2
  refine ⟨⟨100, rfl, by decide⟩, fun x3 h3 => ?_⟩
  obtain rfl := some.inj h3
  exact ⟨rfl, fun _ _ => trivial⟩

/-- In the end the lookup finds the MAC address of 10.0.0.2, and nothing for 10.0.0.1. -/
theorem arp_cache_consistent_short_life :
    Along (arpStep id) (fun x call => call.Allowed x) (emptyCache, []) shortLife ∧
    ∃ c events, run (arpStep id) (emptyCache, []) shortLife = some (c, events) ∧
    Consistent id events c.table ∧
      (c.table.get id 0x0A000001).map (Option.map ArpEntry.mac) = some none ∧
      (c.table.get id 0x0A000002).map (Option.map ArpEntry.mac) = some (some fun _ => 0x43) := by
  obtain ⟨c, events, hrun, h⟩ := arp_cache_consistent id _ _ shortLife shortLife_allowed
  have hget : ∀ ip, (c.table.get id ip).map (Option.map ArpEntry.mac) = some (lastPut events ip) :=
    fun ip => by
    obtain ⟨r, hr, hmac, -⟩ := h.get ip
    rw [hr, map_some, hmac]
  refine ⟨shortLife_allowed, c, events, hrun, h, ?_⟩
  rw [hget, hget]
  obtain rfl := (Prod.mk.inj (some.inj hrun)).2
  exact ⟨rfl, rfl⟩

end Pptk.Arp
