import Mathlib.Data.List.TakeWhile
import Pptk.Ldp.Switch.Table

/-!
# What the switch has learned

Every sequence of learn, lookup and time-out operations of one thread, with times that do not
decrease. The history of the operations with their outputs says for every MAC address whether its
latest learn still counts (`latestPort`): a message about memory shortage or a timeout ends it.

Main result: `learning_table`.
-/

namespace Pptk.Ldp.Switch

open Pptk.Lib List Option

/-! ## Operations -/

/-- The operations. `malloc` succeeds. -/
inductive Op
  | learn (mac : Mac) (port : ℤ) (time64 : UInt64) (malloc : Malloc)
  | lookup (mac : Mac)
  | timeOut (time64 : UInt64)

/-- What an operation prints or returns. -/
inductive Out
  | messages (l : List Message)
  | port (port : ℤ)

/-- One operation of the code. -/
def step (c : Config) (t : Table) : Op → Option (Table × Out)
  | .learn mac port time64 malloc => (t.portPut c mac port time64 (some malloc)).map fun r =>
    (r.1, .messages r.2)
  | .lookup mac => (t.portGet c mac).map fun port => (t, .port port)
  | .timeOut time64 => (t.timeOut time64).map fun r => (r.1, .messages r.2)

/-- The time that an operation is given. -/
def Op.time? : Op → Option UInt64
  | .learn _ _ time64 _ => some time64
  | .lookup _ => none
  | .timeOut time64 => some time64

/-- The MAC address that is learned. -/
def Op.mac? : Op → Option Mac
  | .learn mac _ _ _ => some mac
  | .lookup _ => none
  | .timeOut _ => none

/-! ## History -/

/-- The port that an operation learns for a MAC address. -/
def Op.learns (mac : Mac) : Op → Option ℤ
  | .learn mac' port _ _ => if mac' = mac then some port else none
  | .lookup _ => none
  | .timeOut _ => none

/-- The MAC address of an entry that was deleted. -/
def Message.deleted : Message → Option Mac
  | .timeout mac _ => some mac
  | .shortage mac _ => some mac
  | .learning _ _ => none

/-- The entry of a MAC address was deleted. -/
def Out.deletes (mac : Mac) : Out → Bool
  | .messages l => mac ∈ l.filterMap Message.deleted
  | .port _ => false

/-- The latest learn of a MAC address, if its entry was not deleted since. -/
def latestPort (hist : List (Op × Out)) (mac : Mac) : Option ℤ :=
  hist.foldl (fun port x => (x.1.learns mac).or (if x.2.deletes mac then none else port)) none

/-- The MAC addresses that were learned, in order. -/
def learnedMacs (hist : List (Op × Out)) : List Mac := (hist.map Prod.fst).filterMap Op.mac?

/-- The times, in order. -/
def times (hist : List (Op × Out)) : List UInt64 := (hist.map Prod.fst).filterMap Op.time?

theorem latestPort_append (hist : List (Op × Out)) (x : Op × Out) (mac : Mac) :
    latestPort (hist ++ [x]) mac =
      (x.1.learns mac).or (if x.2.deletes mac then none else latestPort hist mac) := by
  rw [latestPort, foldl_append, foldl_cons, foldl_nil, latestPort]

theorem learnedMacs_append (hist : List (Op × Out)) (x : Op × Out) :
    learnedMacs (hist ++ [x]) = learnedMacs hist ++ x.1.mac?.toList := by
  rw [learnedMacs, map_append, filterMap_append, learnedMacs]
  refine congrArg (_ ++ ·) ?_
  cases h : x.1.mac? with
  | none => exact filterMap_cons_none h
  | some mac => exact filterMap_cons_some h

variable {time64 : UInt64}

theorem mem_times_append {hist : List (Op × Out)} {x : Op × Out} (h : time64 ∈ times hist) :
    time64 ∈ times (hist ++ [x]) := by
  rw [times, map_append, filterMap_append]
  exact mem_append_left _ h

/-- The records agree with the history. -/
structure RecordsInv (cap : ℕ) (hist : List (Op × Out)) (l : List Record) : Prop where
  ordered : Recency.Ordered Record.mac l (learnedMacs hist)
  room : l.length ≤ cap
  sorted : l.Pairwise fun r s => r.time64 ≤ s.time64
  time : ∀ r ∈ l, r.time64 ∈ times hist
  port : ∀ mac, latestPort hist mac = portOf l mac

theorem RecordsInv.init (cap : ℕ) : RecordsInv cap [] [] :=
  ⟨List.Sublist.refl _, Nat.zero_le _, List.Pairwise.nil, by simp, fun _ => rfl⟩

/-! ## One operation on the records -/

namespace RecordsInv

variable {cap : ℕ} {hist : List (Op × Out)} {l : List Record}

theorem lookup (h : RecordsInv cap hist l) (mac : Mac) (port : ℤ) :
    RecordsInv cap (hist ++ [(.lookup mac, .port port)]) l := by
  refine ⟨?_, h.room, h.sorted, fun r hr => ?_, fun mac' => ?_⟩
  · rw [learnedMacs_append]
    exact (append_nil (learnedMacs hist)).symm ▸ h.ordered
  · exact mem_times_append (h.time r hr)
  · rw [latestPort_append, ← h.port]
    rfl

theorem latestPort_drop (h : RecordsInv cap hist l) (op : Op) {P Q : List Record}
    {msgs : List Message} (hl : l = P ++ Q)
    (hdel : msgs.filterMap Message.deleted = P.map Record.mac) (mac : Mac) :
    latestPort (hist ++ [(op, .messages msgs)]) mac = (op.learns mac).or (portOf Q mac) := by
  have hnd := h.ordered.nodup
  rw [hl] at hnd
  rw [latestPort_append, h.port, Out.deletes, hdel, portOf, portOf, Recency.find_drop hnd, ← hl]
  refine congrArg (Option.or _) ?_
  split_ifs with h1 h2 h2
  · rfl
  · exact absurd (of_decide_eq_true h1) h2
  · exact absurd (decide_eq_true h2) h1
  · rfl

/-- Taking out what has not been used for long keeps `RecordsInv`. -/
theorem timeOut (h : RecordsInv cap hist l) (time64 : UInt64) :
    RecordsInv cap (hist ++ [(.timeOut time64, .messages (expire l time64).2)])
      (expire l time64).1 := by
  have hsub : (expire l time64).1.Sublist l := dropWhile_sublist _
  have hdel : (expire l time64).2.filterMap Message.deleted =
      (l.takeWhile (Record.expired time64)).map Record.mac := by
    rw [expire, filterMap_map]
    exact congrFun filterMap_eq_map _
  refine ⟨?_, hsub.length_le.trans h.room, h.sorted.sublist hsub, fun r hr => ?_, fun mac => ?_⟩
  · rw [learnedMacs_append]
    exact (append_nil (learnedMacs hist)).symm ▸ h.ordered.sublist hsub
  · exact mem_times_append (h.time r (hsub.subset hr))
  · exact h.latestPort_drop _ takeWhile_append_dropWhile.symm hdel mac

theorem touch (h : RecordsInv cap hist l) {mac : Mac} {port : ℤ} {time64 : UInt64} (malloc : Malloc)
    {P Q : List Record} {msgs : List Message} (hl : l = P ++ Q)
    (hdel : msgs.filterMap Message.deleted = P.map Record.mac)
    (hroom : (Recency.touch Record.mac Q ⟨mac, port, time64⟩).length ≤ cap)
    (htime : ∀ x ∈ times hist, x ≤ time64) :
    RecordsInv cap (hist ++ [(.learn mac port time64 malloc, .messages msgs)])
      (Recency.touch Record.mac Q ⟨mac, port, time64⟩) := by
  have hsub : Q.Sublist l := hl ▸ sublist_append_right P Q
  have hfilter : (Q.filter fun x => x.mac ≠ mac).Sublist l := filter_sublist.trans hsub
  refine ⟨?_, hroom, ?_, fun r hr => ?_, fun mac' => ?_⟩
  · rw [learnedMacs_append]
    exact (h.ordered.sublist hsub).touch (r := ⟨mac, port, time64⟩)
  · refine pairwise_append.mpr ⟨h.sorted.sublist hfilter, pairwise_singleton _ _, ?_⟩
    intro r hr s hs
    rw [mem_singleton.mp hs]
    exact htime _ (h.time r (hfilter.subset hr))
  · rcases mem_append.mp hr with hr | hr
    · exact mem_times_append (h.time r (hfilter.subset hr))
    · rw [mem_singleton.mp hr, times]
      simp [Op.time?]
  · rw [h.latestPort_drop _ hl hdel]
    by_cases hmac : mac = mac'
    · subst hmac
      rw [portOf, portOf, Recency.find_touch_self (r := (⟨mac, port, time64⟩ : Record)), Op.learns,
        if_pos rfl]
      rfl
    · rw [portOf, portOf, Recency.find_touch_of_ne (Ne.symm hmac), Op.learns, if_neg hmac, none_or]

/-- Learning an address keeps `RecordsInv`. -/
theorem learn (h : RecordsInv cap hist l) (hcap : 0 < cap) {mac : Mac} {port : ℤ} {time64 : UInt64}
    (malloc : Malloc) (htime : ∀ x ∈ times hist, x ≤ time64) :
    RecordsInv cap
      (hist ++ [(.learn mac port time64 malloc, .messages
        (learn cap l ⟨mac, port, time64⟩ true).2)])
      (learn cap l ⟨mac, port, time64⟩ true).1 := by
  rw [Switch.learn]
  by_cases hknown : (Recency.find Record.mac l mac).isSome
  · rw [if_pos hknown]
    exact h.touch malloc (P := []) rfl rfl ((Recency.length_touch_of_find hknown).trans h.room)
      htime
  · rw [if_neg hknown, if_pos rfl]
    refine h.touch malloc (Recency.evicted_append_evict cap l).symm ?_ ?_ htime
    · rw [filterMap_append, shortages, filterMap_map]
      show _ ++ [] = _
      rw [append_nil]
      exact congrFun filterMap_eq_map _
    · exact (Recency.length_touch_le _ _).trans (Recency.length_evict_lt hcap h.room)

end RecordsInv

/-! ## The table -/

/-- The lines that an operation printed. -/
def Out.lines : Out → List Message
  | .messages l => l
  | .port _ => []

/-- Why entries go, in an operation that leads from `t` to `t'`: the message about memory shortage
is about the first of `bucketcnt` records, and an unknown MAC address was learned; a message about a
timeout is about a record that is too old, and no record that is too old stays, unless its time is
close to the end of the range of `uint64_t`. -/
structure Justified (c : Config) (t : Table) (op : Op) (t' : Table) (lines : List Message) :
  Prop where
  shortage : ∀ mac port, .shortage mac port ∈ lines → t.records.length = c.bucketcnt ∧
    (∃ mac' port' time64 malloc, op = .learn mac' port' time64 malloc ∧
      portOf t.records mac' = none) ∧
    ∃ r, t.records.head? = some r ∧ r.mac = mac
  timeout : ∀ mac port, .timeout mac port ∈ lines →
    ∃ time64, op = .timeOut time64 ∧ ∃ r ∈ t.records, r.mac = mac ∧ r.time64 + timeout < time64
  kept : ∀ time64, op = .timeOut time64 → ∀ r ∈ t'.records, r.time64.toNat + Switch.timeout.toNat <
    2 ^ 64 →
    time64 ≤ r.time64 + Switch.timeout

variable {l : List Record} {c : Config} {t : Table}

theorem mem_expire_messages {m : Message} (h : m ∈ (expire l time64).2) :
    ∃ r ∈ l, m = .timeout r.mac r.port ∧ r.time64 + timeout < time64 := by
  obtain ⟨r, hr, rfl⟩ := mem_map.mp h
  have hold : r.expired time64 = true := mem_takeWhile_imp hr
  exact ⟨r, (takeWhile_sublist _).subset hr, rfl, of_decide_eq_true hold⟩

theorem le_of_mem_expire (hl : l.Pairwise fun r s => r.time64 ≤ s.time64) {r : Record}
    (hr : r ∈ (expire l time64).1) (hlt : r.time64.toNat + timeout.toNat < 2 ^ 64) :
    time64 ≤ r.time64 + timeout := by
  have hsub : (expire l time64).1.Sublist l := dropWhile_sublist _
  rcases hd : (expire l time64).1 with _ | ⟨s, rest⟩
  · rw [hd] at hr
    cases hr
  · -- the first record that stays is not too old, and the others are newer
    have hs : time64 ≤ s.time64 + timeout := by
      have hhead := head?_dropWhile_not (Record.expired time64) l
      rw [show l.dropWhile (Record.expired time64) = s :: rest from hd] at hhead
      exact UInt64.not_lt.mp (of_decide_eq_false hhead)
    have hle : s.time64 ≤ r.time64 := by
      have hp := hl.sublist hsub
      rw [hd] at hr hp
      rcases mem_cons.mp hr with rfl | hr
      · exact UInt64.le_refl _
      · exact (pairwise_cons.mp hp).1 r hr
    rw [UInt64.le_iff_toNat_le] at hs hle ⊢
    rw [UInt64.toNat_add] at hs ⊢
    omega

theorem mem_learn_messages {cap : ℕ} {r : Record} {m : Message} (h : m ∈ (learn cap l r true).2) :
    m = .learning r.mac r.port ∨
      Recency.find Record.mac l r.mac = none ∧ cap ≤ l.length ∧
        ∃ s, l.head? = some s ∧ m = .shortage s.mac s.port := by
  rw [learn] at h
  by_cases hknown : (Recency.find Record.mac l r.mac).isSome
  · rw [if_pos hknown] at h
    cases h
  · rw [if_neg hknown, if_pos rfl] at h
    rcases mem_append.mp h with h | h
    · obtain ⟨s, hs, rfl⟩ := mem_map.mp h
      rw [Recency.evicted] at hs
      by_cases hfull : cap ≤ l.length
      · rw [if_pos hfull] at hs
        exact .inr ⟨by simpa using hknown, hfull, s, by simpa using hs, rfl⟩
      · rw [if_neg hfull] at hs
        cases hs
    · exact .inl (mem_singleton.mp h)

/-- The table follows the records. -/
theorem TableInv.step {hist : List (Op × Out)} (h : TableInv c t)
    (hrec : RecordsInv c.bucketcnt hist t.records) (op : Op) :
    ∃ t' out, Switch.step c t op = some (t', out) ∧ TableInv c t' ∧ Justified c t op t' out.lines ∧
      ((∀ time64 ∈ op.time?, ∀ x ∈ times hist, x ≤ time64) →
        RecordsInv c.bucketcnt (hist ++ [(op, out)]) t'.records) := by
  cases op with
  | learn mac port time64 malloc =>
    obtain ⟨t', hput, h', hrec'⟩ := h.portPut mac port time64 (some malloc)
    refine ⟨t', _, by rw [Switch.step, hput]; rfl, h', ⟨?_, ?_, ?_⟩, fun htime => ?_⟩
    · intro mac' port' hmem
      rcases mem_learn_messages hmem with heq | ⟨hnone, hfull, s, hs, heq⟩
      · cases heq
      · cases heq
        refine ⟨le_antisymm hrec.room hfull, ⟨mac, port, time64, malloc, rfl, ?_⟩, s, hs, rfl⟩
        rw [portOf, hnone]
        rfl
    · intro mac' port' hmem
      rcases mem_learn_messages hmem with heq | ⟨_, _, s, _, heq⟩ <;> cases heq
    · intro _ heq
      cases heq
    · rw [hrec']
      exact hrec.learn c.bucketcnt_pos malloc (htime time64 rfl)
  | lookup mac =>
    refine ⟨t, _, by rw [Switch.step, h.portGet]; rfl, h, ⟨?_, ?_, ?_⟩, fun _ => hrec.lookup mac _⟩
    · intro _ _ hmem
      cases hmem
    · intro _ _ hmem
      cases hmem
    · intro _ heq
      cases heq
  | timeOut time64 =>
    obtain ⟨t', hto, h', hrec'⟩ := h.timeOut time64
    refine ⟨t', _, by rw [Switch.step, hto]; rfl, h', ⟨?_, ?_, ?_⟩, fun _ => ?_⟩
    · intro mac port hmem
      obtain ⟨r, _, heq, _⟩ := mem_expire_messages hmem
      cases heq
    · intro mac port hmem
      obtain ⟨r, hr, heq, hold⟩ := mem_expire_messages hmem
      cases heq
      exact ⟨time64, rfl, r, hr, rfl, hold⟩
    · intro time64' heq r hr hlt
      cases heq
      rw [hrec'] at hr
      exact le_of_mem_expire hrec.sorted hr hlt
    · rw [hrec']
      exact hrec.timeOut time64

theorem TableInv.run {hist : List (Op × Out)} {ops : List Op} (h : TableInv c t)
    (hrec : RecordsInv c.bucketcnt hist t.records)
    (htime : (times hist ++ ops.filterMap Op.time?).Pairwise (· ≤ ·)) :
    ∃ t' outs, runOut (Switch.step c) t ops = some (t', outs) ∧ TableInv c t' ∧
      RecordsInv c.bucketcnt (hist ++ ops.zip outs) t'.records := by
  induction ops generalizing t hist with
  | nil => exact ⟨t, [], rfl, h, by simpa using hrec⟩
  | cons op ops ih =>
    have hop : ∀ time64 ∈ op.time?, ∀ x ∈ times hist, x ≤ time64 := by
      intro time64 ht x hx
      refine (pairwise_append.mp htime).2.2 x hx time64 ?_
      rw [filterMap_cons_some ht]
      exact mem_cons_self
    obtain ⟨t1, out, hstep, h1, _, hrec1⟩ := h.step hrec op
    have htime1 : (times (hist ++ [(op, out)]) ++ ops.filterMap Op.time?).Pairwise (· ≤ ·) := by
      rw [times, map_append, filterMap_append, append_assoc, ← filterMap_append]
      exact htime
    obtain ⟨t', outs, hrun, h', hrec'⟩ := ih h1 (hrec1 hop) htime1
    refine ⟨t', out :: outs, ?_, h', ?_⟩
    · rw [runOut, hstep, bind_some, hrun]
      rfl
    · rw [append_assoc] at hrec'
      exact hrec'

theorem Config.bucketOf_lt (c : Config) (mac : Mac) : c.bucketOf mac < c.bucketcnt := by
  have hle : c.bucketOf mac ≤ c.bucketcnt - 1 := Nat.and_le_right
  have hpos := c.bucketcnt_pos
  omega

theorem TableInv.chains_perm (h : TableInv c t) :
    ((range c.bucketcnt).flatMap t.buckets).Perm t.oldestToNewest := by
  refine (perm_ext_iff_of_nodup ?_ h.nodup).mpr fun a => ?_
  · refine nodup_flatMap.mpr ⟨fun i _ => h.chainNodup i, ?_⟩
    refine List.Nodup.pairwise_of_forall_ne nodup_range fun i _ j _ hij a hi hj => ?_
    obtain ⟨mac, hmac, rfl⟩ := (h.chain i a).mp hi
    obtain ⟨mac', hmac', rfl⟩ := (h.chain j a).mp hj
    rw [some.inj (hmac.symm.trans hmac')] at hij
    exact hij rfl
  · rw [mem_flatMap, h.alloc]
    constructor
    · rintro ⟨i, _, hi⟩
      obtain ⟨mac, hmac, _⟩ := (h.chain i a).mp hi
      exact ⟨mac, hmac⟩
    · rintro ⟨mac, hmac⟩
      exact ⟨c.bucketOf mac, mem_range.mpr (c.bucketOf_lt mac), (h.chain _ a).mpr ⟨mac, hmac, rfl⟩⟩

/-- After every sequence of operations with times that do not decrease, all of which are carried
out: the chains of the hash table and the list have the same entries, each once; no two of them have
the same MAC address, and there are at most `bucketcnt`; the list is in the order of the last learn
and of its time; a lookup returns the port of the latest learn, or -1 if the entry was deleted
since; and entries are deleted only as the least recently learned one of a full table, or because
they are too old. -/
theorem learning_table (c : Config) (ops : List Op)
    (htime : (ops.filterMap Op.time?).Pairwise (· ≤ ·)) :
    ∃ t outs, runOut (step c) Table.init ops = some (t, outs) ∧
      ((range c.bucketcnt).flatMap t.buckets).Perm t.oldestToNewest ∧
      t.oldestToNewest.Nodup ∧ (∀ a ∈ t.oldestToNewest, ∃ e, t.entry a = some e) ∧
      (t.records.map Record.mac).Nodup ∧ t.oldestToNewest.length ≤ c.bucketcnt ∧
      (t.records.Pairwise fun r s => r.time64 ≤ s.time64) ∧
      (t.records.map Record.mac).Sublist (ops.filterMap Op.mac?).dedup ∧
      (∀ mac, t.portGet c mac = some ((latestPort (ops.zip outs) mac).getD (-1))) ∧
      ∀ op, ∃ t' out, step c t op = some (t', out) ∧ Justified c t op t' out.lines := by
  obtain ⟨t, outs, hrun, h, hrec⟩ := (TableInv.init c).run (RecordsInv.init c.bucketcnt) htime
  rw [nil_append] at hrec
  refine ⟨t, outs, hrun, h.chains_perm, h.nodup, fun a ha => h.exists_entry ha, hrec.ordered.nodup,
    ?_, hrec.sorted, ?_, fun mac => ?_, fun op => ?_⟩
  · rw [← h.count, ← h.length_records]
    exact hrec.room
  · have hord := hrec.ordered
    rwa [Recency.Ordered, learnedMacs, map_fst_zip (length_of_runOut hrun).ge] at hord
  · rw [h.portGet, hrec.port]
  · obtain ⟨t', out, hstep, _, hjust, _⟩ := h.step hrec op
    exact ⟨t', out, hstep, hjust⟩

/-- Three addresses are learned, the first one a second time, so that the second one has to go. -/
def fourLearns : List Op :=
  [.learn (fun _ => 2) 0 1 nextMalloc, .learn (fun _ => 4) 1 2 nextMalloc,
    .learn (fun _ => 2) 3 3 nextMalloc, .learn (fun _ => 6) 2 4 nextMalloc]

theorem learning_table_fourLearns :
    (fourLearns.filterMap Op.time?).Pairwise (· ≤ ·) ∧ ∃ t outs,
      runOut (step twoBuckets) Table.init fourLearns = some (t, outs) ∧
      t.oldestToNewest.length ≤ 2 ∧
      t.portGet twoBuckets (fun _ => 2) = some 3 ∧ t.portGet twoBuckets (fun _ => 4) = some (-1) ∧
      t.portGet twoBuckets (fun _ => 6) = some 2 := by
  have htime : (fourLearns.filterMap Op.time?).Pairwise (· ≤ ·) := by decide
  obtain ⟨t, outs, hrun, _, _, _, _, hlen, _⟩ := learning_table twoBuckets fourLearns htime
  have hports : (runOut (step twoBuckets) Table.init fourLearns).map (fun r =>
      (r.1.portGet twoBuckets (fun _ => 2), r.1.portGet twoBuckets (fun _ => 4),
        r.1.portGet twoBuckets (fun _ => 6))) = some (some 3, some (-1), some 2) := by
    decide
  rw [hrun] at hports
  obtain ⟨h2, h46⟩ := Prod.mk.inj (some.inj hports)
  obtain ⟨h4, h6⟩ := Prod.mk.inj h46
  exact ⟨htime, t, outs, hrun, hlen, h2, h4, h6⟩

end Pptk.Ldp.Switch
