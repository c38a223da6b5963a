import Pptk.Iphdr.DnsName

/-!
# Bounds of reading DNS messages

Which calls of the functions that read a DNS message stay inside the packet and inside their output
buffers.

Main results: `dnsNext_safe_iff`, `anAsk_safe_iff` and `dns_reading_safe_iff`.
-/

namespace Pptk.Iphdr

open Lib List Option

/-! ## Safety -/

/-- No store is outside of a buffer, and a call that succeeds has read bytes of the packet only. -/
def DnsCall.InBounds {α : Type} (r : DnsCall α) (plen bufsiz datbufsiz : ℕ) : Prop :=
  (∀ i ∈ r.stores, i < bufsiz) ∧ (∀ i ∈ r.datStores, i < datbufsiz) ∧
    ∀ v, r.ret = .ok v → ∀ i ∈ r.reads, i < plen

/-- The same, and the name has room in its buffer, with the zero byte at its end. -/
def QuestionSafe (plen bufsiz : ℕ) (r : DnsCall DnsQuestion) : Prop :=
  r.InBounds plen bufsiz 0 ∧ ∀ q, r.ret = .ok q → q.name.length < bufsiz

/-- The same, and the name and the data have room in their buffers. -/
def AnswerSafe (plen bufsiz datbufsiz : ℕ) (r : DnsCall DnsAnswer) : Prop :=
  r.InBounds plen bufsiz datbufsiz ∧
    ∀ a, r.ret = .ok a → a.name.length < bufsiz ∧ a.data.length < datbufsiz

/-- There is a question whose name has a text, or an error is found. -/
def QuestionOk (m : Mem) (plen bufsiz off remcnt : ℕ) : Prop :=
  remcnt = 0 ∨ ∀ e, Decodes m plen bufsiz off e [] → plen < e + 4

/-- The data of the record whose name ends at `e` lie inside the packet, or do not fit. In a CNAME,
every label that has room in the buffer of the name has room in the buffer of the data, too, and the
text is not empty. -/
def DataOk (m : Mem) (plen bufsiz datbufsiz e : ℕ) : Prop :=
  if hdrGet16n m e = 5 then
    hdrGet16n m (e + 8) ≠ 0 ∨ plen ≤ e + 10 →
      (∀ n, Passes m plen bufsiz (e + 10) n → Passes m plen datbufsiz (e + 10) n) ∧
        ∀ e', ¬Decodes m plen bufsiz (e + 10) e' []
  else hdrGet16n m (e + 8) + 2 ≤ datbufsiz → e + 10 + hdrGet16n m (e + 8) ≤ plen

/-- There is a record with such data, or an error is found before. -/
def AnswerOk (m : Mem) (plen bufsiz datbufsiz off remcnt : ℕ) : Prop :=
  remcnt = 0 ∨ ∀ e txt, Decodes m plen bufsiz off e txt → e + 10 ≤ plen →
    DataOk m plen bufsiz datbufsiz e

/-- The state in which a loop ends. -/
def endState : Except NameLoop NameLoop → NameLoop
  | .ok s => s
  | .error s => s

section Loop

variable {m : Mem} {plen bufsiz off n : ℕ} {s s' : NameLoop} {q : NamePos}

theorem Decodes.unique {e e' : ℕ} {txt txt' : List UInt8} (hplen : plen ≤ 65535)
    (h : Decodes m plen bufsiz off e txt) (h' : Decodes m plen bufsiz off e' txt') :
    e = e' ∧ txt = txt' := by
  obtain ⟨s, hs, rfl, rfl⟩ := (returns_ok_iff hplen).mpr h
  obtain ⟨s', hs', rfl, rfl⟩ := (returns_ok_iff hplen).mpr h'
  obtain rfl := Except.ok.inj (hs.unique hs')
  exact ⟨rfl, rfl⟩

theorem Decodes.not_error {e : ℕ} {txt : List UInt8} (hplen : plen ≤ 65535)
    (h : Decodes m plen bufsiz off e txt) :
    ¬Returns (nameBody m plen bufsiz) (.start off) (.error s) := by
  intro hr
  obtain ⟨s', hs', -⟩ := (returns_ok_iff hplen).mpr h
  exact absurd (hr.unique hs') (by simp)

theorem copyLabel_error {k : ℕ} (h : copyLabel m plen bufsiz s k = .inr (.error s')) : s' = s := by
  unfold copyLabel at h
  split_ifs at h
  · exact (Except.error.inj (Sum.inr.inj h)).symm
  · exact (Except.error.inj (Sum.inr.inj h)).symm

theorem nameBody_error (h : nameBody m plen bufsiz s = .inr (.error s')) :
    s'.str = s.str ∧ s'.stores = s.stores := by
  by_cases hoff : s.off < plen
  swap
  · simp [nameBody_done (Nat.not_lt.mp hoff)] at h
  by_cases h0 : (m s.laboff).toNat = 0
  · simp [nameBody_zero hoff h0] at h
  by_cases hptr : IsPointer m s.laboff
  · rw [nameBody_pointer hoff hptr] at h
    split_ifs at h
    · obtain rfl := Except.error.inj (Sum.inr.inj h)
      exact ⟨rfl, rfl⟩
    · obtain rfl := Except.error.inj (Sum.inr.inj h)
      exact ⟨rfl, rfl⟩
    · obtain rfl := copyLabel_error h
      exact ⟨rfl, rfl⟩
  · rw [nameBody_label hoff h0 hptr] at h
    obtain rfl := copyLabel_error h
    exact ⟨rfl, rfl⟩

theorem Passes.length_lt (h : Passes m plen bufsiz off n) (hq : walk m plen off n = some q)
    (hbuf : 1 ≤ bufsiz) : q.text.length < bufsiz := by
  cases n with
  | zero =>
    obtain rfl := some.inj hq
    exact hbuf
  | succ n =>
    obtain ⟨q0, hq0, hstep⟩ := walk_pred hq
    obtain ⟨l, hl, rfl⟩ := map_eq_some_iff.mp hstep
    obtain ⟨q', l', hq', hl', -, hfit⟩ := h n (by omega)
    obtain rfl := some.inj (hq0.symm.trans hq')
    obtain rfl := some.inj (hl.symm.trans hl')
    have hle : (appendLabel m q0.text l).length ≤ q0.text.length + l.len + 1 :=
      length_appendLabel_le
    change (appendLabel m q0.text l).length < bufsiz
    omega

/-- What a loop that reads a name has done when it ends: the labels that it could read, and no
others. -/
theorem exists_read_of_returns (hplen : plen ≤ 65535) {x : Except NameLoop NameLoop}
    (hr : Returns (nameBody m plen bufsiz) (.start off) x) :
    ∃ n q s, s.Read m plen bufsiz off n q ∧ nameBody m plen bufsiz s = .inr x ∧
      ∀ k, Passes m plen bufsiz off k → k ≤ n := by
  obtain ⟨s, hsteps, hb⟩ := returns_iff.mp hr
  obtain ⟨n, q, hread⟩ := read_of_steps hplen hsteps
  refine ⟨n, q, s, hread, hb, fun k hk => ?_⟩
  by_contra hlt
  obtain ⟨q', l, hq', hl, hoff, hfit⟩ := hk n (by omega)
  obtain rfl := some.inj (hread.walk.symm.trans hq')
  have hgo := (hread.position.body_inl_iff hplen).mpr ⟨by rwa [hread.position.off], l, hl, hfit,
    rfl⟩
  simp [hgo] at hb

/-- The stores of a loop have room in a buffer exactly if the labels have. -/
theorem stores_lt_iff (hplen : plen ≤ 65535) {x : Except NameLoop NameLoop}
    (hr : Returns (nameBody m plen bufsiz) (.start off) x) (b : ℕ) :
    (∀ i ∈ (endState x).stores, i < b) ↔
      0 < b ∧ ∀ k, Passes m plen bufsiz off k → Passes m plen b off k := by
  obtain ⟨n, q, s, hread, hb, hmax⟩ := exists_read_of_returns hplen hr
  have hstores : (endState x).stores = s.stores := by
    cases x with
    | error s' => exact (nameBody_error hb).2
    | ok s' => rcases nameBody_ok_iff.mp hb with ⟨-, rfl⟩ | ⟨-, -, rfl⟩ <;> rfl
  rw [hstores, hread.stores]
  refine and_congr_right fun _ => ⟨fun h k hk i hi => h i ?_, fun h => h n hread.passes⟩
  have := hmax k hk
  omega

theorem length_lt_of_ok (hplen : plen ≤ 65535) {b : ℕ} (hb : 1 ≤ b)
    (hr : Returns (nameBody m plen bufsiz) (.start off) (.ok s))
    (h : ∀ k, Passes m plen bufsiz off k → Passes m plen b off k) : s.str.length < b := by
  obtain ⟨n, q, s0, hread, hret, -⟩ := exists_read_of_returns hplen hr
  have hstr : s.str = s0.str := by
    rcases nameBody_ok_iff.mp hret with ⟨-, rfl⟩ | ⟨-, -, rfl⟩ <;> rfl
  rw [hstr, hread.position.str]
  exact (h n hread.passes).length_lt hread.walk hb

theorem reads_lt_of_ok (hplen : plen ≤ 65535)
    (hr : Returns (nameBody m plen bufsiz) (.start off) (.ok s)) : ∀ i ∈ s.reads, i < plen := by
  obtain ⟨n, q, s0, hread, hb, -⟩ := exists_read_of_returns hplen hr
  rcases nameBody_ok_iff.mp hb with ⟨-, rfl⟩ | ⟨hoff, -, rfl⟩
  · exact hread.reads
  · intro i hi
    rcases mem_append.mp hi with hi | hi
    · exact hread.reads i hi
    · rw [mem_singleton] at hi
      subst hi
      rw [hread.position.laboff]
      rw [hread.position.off] at hoff
      cases n with
      | zero =>
        obtain rfl := some.inj hread.walk
        exact hoff
      | succ n =>
        obtain ⟨q0, -, hstep⟩ := walk_pred hread.walk
        obtain ⟨l, hl, rfl⟩ := map_eq_some_iff.mp hstep
        exact wireLabel_next_lt hl

theorem lastIndex_lt_iff {str : List UInt8} {b : ℕ} (hb : b < 2 ^ 64) (hlen : str.length ≤ b) :
    lastIndex str < b ↔ str ≠ [] := by
  unfold lastIndex
  cases str with
  | nil =>
    simp
    omega
  | cons c t =>
    rw [length_cons] at hlen ⊢
    rw [show t.length + 1 + (2 ^ 64 - 1) = t.length + 2 ^ 64 by omega, Nat.add_mod_right,
      Nat.mod_eq_of_lt (by omega)]
    simp
    omega

end Loop

/-! ## Questions and answers -/

section Calls

variable {m : Mem} {plen bufsiz datbufsiz off remcnt : ℕ}

variable {b : ℕ}

theorem forall_range_map_lt {a k : ℕ} (h : a + k ≤ b) : ∀ i ∈ (range k).map (a + ·), i < b := by
  intro i hi
  obtain ⟨j, hj, rfl⟩ := mem_map.mp hi
  rw [mem_range] at hj
  omega

theorem forall_mem_zero (hb : 1 ≤ b) : ∀ i ∈ [0], i < b := by
  intro i hi
  rw [mem_singleton] at hi
  omega

theorem passes_self : ∀ k, Passes m plen b off k → Passes m plen b off k := fun _ => id

/-- `dns_next` is safe exactly if it is not given a name with an empty text. -/
theorem dnsNext_safe_iff (hplen : plen ≤ 65535) (hbuf : 1 ≤ bufsiz) (hbuf' : bufsiz < 2 ^ 64)
    {r : DnsCall DnsQuestion} (hr : DnsNextReturns m off remcnt plen bufsiz r) :
    QuestionSafe plen bufsiz r ↔ QuestionOk m plen bufsiz off remcnt := by
  obtain ⟨fuel, hr⟩ := hr
  unfold dnsNext at hr
  unfold QuestionSafe DnsCall.InBounds QuestionOk
  by_cases h0 : remcnt = 0
  · rw [if_pos h0] at hr
    obtain rfl := some.inj hr
    simp [h0]
    omega
  rw [if_neg h0, map_eq_some_iff] at hr
  obtain ⟨x, hx, rfl⟩ := hr
  have hret : Returns (nameBody m plen bufsiz) (.start off) x := ⟨fuel, hx⟩
  have hstores := (stores_lt_iff hplen hret bufsiz).mpr ⟨hbuf, passes_self⟩
  simp only [h0, false_or]
  cases x with
  | error s =>
    refine iff_of_true ⟨⟨hstores, ?_, ?_⟩, ?_⟩ fun e he => absurd hret (he.not_error hplen)
    · simp [dnsNextRest]
    · simp [dnsNextRest]
    · simp [dnsNextRest]
  | ok s =>
    have hdec := (returns_ok_iff hplen).mp ⟨s, hret, rfl, rfl⟩
    have hreads := reads_lt_of_ok hplen hret
    have hlen := length_lt_of_ok hplen hbuf hret passes_self
    by_cases hoff : s.off + 4 > plen
    · simp only [dnsNextRest, if_pos hoff]
      refine iff_of_true ⟨⟨hstores, by simp, by simp⟩, by simp⟩ fun e he => ?_
      rw [(he.unique hplen hdec).1]
      exact hoff
    · simp only [dnsNextRest, if_neg hoff]
      constructor
      · rintro ⟨⟨hst, -⟩, -⟩ e he
        have hlast := hst (lastIndex s.str) (by simp)
        exact absurd (he.unique hplen hdec).2.symm ((lastIndex_lt_iff hbuf' hlen.le).mp hlast)
      · intro hok
        have hne : s.str ≠ [] := by
          intro hnil
          rw [hnil] at hdec
          exact hoff (hok _ hdec)
        refine ⟨⟨?_, by simp, fun v _ => ?_⟩, fun v hv => ?_⟩
        · rw [forall_mem_append]
          refine ⟨hstores, ?_⟩
          simpa using (lastIndex_lt_iff hbuf' hlen.le).mpr hne
        · rw [forall_mem_append]
          exact ⟨hreads, forall_range_map_lt (by omega)⟩
        · obtain rfl := Except.ok.inj hv
          exact (length_dropLast ▸ Nat.sub_le ..).trans_lt hlen

theorem length_dropLast_lt {str : List UInt8} (h : str.length < b) : str.dropLast.length < b := by
  rw [length_dropLast]
  omega

theorem anAskData_safe_iff (hbuf : 1 ≤ bufsiz) (hdat : 1 ≤ datbufsiz) (hplen : plen ≤ 65535)
    {s : NameLoop} (hret : Returns (nameBody m plen bufsiz) (.start off) (.ok s))
    (hoff : s.off + 10 ≤ plen) (htype : hdrGet16n m s.off ≠ 5) :
    AnswerSafe plen bufsiz datbufsiz (anAskData m remcnt datbufsiz s) ↔
      DataOk m plen bufsiz datbufsiz s.off := by
  have hstores := (stores_lt_iff hplen hret bufsiz).mpr ⟨hbuf, passes_self⟩
  unfold AnswerSafe DnsCall.InBounds DataOk anAskData
  simp only [if_neg htype]
  by_cases hfit : hdrGet16n m (s.off + 8) + 2 > datbufsiz
  · simp only [if_pos hfit]
    refine iff_of_true ⟨⟨hstores, ?_, by simp⟩, by simp⟩ fun h => absurd h (by omega)
    exact forall_mem_zero hdat
  simp only [if_neg hfit, Nat.not_lt.mp hfit, true_implies]
  constructor
  · rintro ⟨⟨-, -, hread⟩, -⟩
    by_contra hlt
    have hin : s.off + 10 + (hdrGet16n m (s.off + 8) - 1) ∈
        (range (hdrGet16n m (s.off + 8))).map (s.off + 10 + ·) :=
      mem_map.mpr ⟨_, mem_range.mpr (by omega), rfl⟩
    have := hread _ rfl _ (mem_append_right _ hin)
    omega
  · intro hle
    refine ⟨⟨hstores, ?_, fun v _ => ?_⟩, fun v hv => ?_⟩
    · intro i hi
      rcases mem_cons.mp hi with rfl | hi
      · exact hdat
      · rw [mem_range] at hi
        omega
    · simp only [forall_mem_append]
      exact ⟨⟨reads_lt_of_ok hplen hret, forall_range_map_lt hoff⟩, forall_range_map_lt hle⟩
    · obtain rfl := Except.ok.inj hv
      refine ⟨length_lt_of_ok hplen hbuf hret passes_self, ?_⟩
      simp only [length_bytesAt]
      omega

theorem anAskCname_safe_iff (hbuf : 1 ≤ bufsiz) (hdat : 1 ≤ datbufsiz) (hdat' : datbufsiz < 2 ^ 64)
    (hplen : plen ≤ 65535) {s : NameLoop} {fuel : ℕ} {r : DnsCall DnsAnswer}
    (hret : Returns (nameBody m plen bufsiz) (.start off) (.ok s)) (hoff : s.off + 10 ≤ plen)
    (htype : hdrGet16n m s.off = 5) (hr : anAskCname fuel m remcnt plen bufsiz s = some r) :
    AnswerSafe plen bufsiz datbufsiz r ↔ DataOk m plen bufsiz datbufsiz s.off := by
  have hstores := (stores_lt_iff hplen hret bufsiz).mpr ⟨hbuf, passes_self⟩
  unfold anAskCname at hr
  unfold AnswerSafe DnsCall.InBounds DataOk
  rw [if_pos htype]
  by_cases hrd : s.off + 10 < plen ∧ hdrGet16n m (s.off + 8) = 0
  · rw [if_pos hrd] at hr
    obtain rfl := some.inj hr
    refine iff_of_true ⟨⟨hstores, ?_, by simp⟩, by simp⟩ fun h => absurd h (by omega)
    exact forall_mem_zero hdat
  rw [if_neg hrd, map_eq_some_iff] at hr
  obtain ⟨x, hx, rfl⟩ := hr
  have hdret : Returns (nameBody m plen bufsiz) (.start (s.off + 10)) x := ⟨fuel, hx⟩
  have hdstores := stores_lt_iff hplen hdret datbufsiz
  have hdo : hdrGet16n m (s.off + 8) ≠ 0 ∨ plen ≤ s.off + 10 := by omega
  simp only [hdo, true_implies]
  cases x with
  | error d =>
    constructor
    · rintro ⟨⟨-, hst, -⟩, -⟩
      exact ⟨(hdstores.mp hst).2, fun e he => he.not_error hplen hdret⟩
    · rintro ⟨hpass, -⟩
      exact ⟨⟨hstores, hdstores.mpr ⟨hdat, hpass⟩, by simp [anAskCnameRest]⟩, by
        simp [anAskCnameRest]⟩
  | ok d =>
    have hdec := (returns_ok_iff hplen).mp ⟨d, hdret, rfl, rfl⟩
    constructor
    · rintro ⟨⟨-, hst, -⟩, -⟩
      have hst' := forall_mem_append.mp hst
      have hpass := (hdstores.mp hst'.1).2
      have hlen := length_lt_of_ok hplen hdat hdret hpass
      refine ⟨hpass, fun e he => ?_⟩
      have hlast := (lastIndex_lt_iff hdat' hlen.le).mp (hst'.2 _ (mem_singleton_self _))
      exact hlast (he.unique hplen hdec).2.symm
    · rintro ⟨hpass, hne⟩
      have hlen := length_lt_of_ok hplen hdat hdret hpass
      have hne' : d.str ≠ [] := fun hnil => hne d.off (hnil ▸ hdec)
      refine ⟨⟨hstores, ?_, fun v _ => ?_⟩, fun v hv => ?_⟩
      · refine forall_mem_append.mpr ⟨hdstores.mpr ⟨hdat, hpass⟩, ?_⟩
        simpa using (lastIndex_lt_iff hdat' hlen.le).mpr hne'
      · simp only [anAskCnameRest, forall_mem_append]
        exact ⟨⟨reads_lt_of_ok hplen hret, forall_range_map_lt hoff⟩, reads_lt_of_ok hplen hdret⟩
      · obtain rfl := Except.ok.inj hv
        exact ⟨length_lt_of_ok hplen hbuf hret passes_self, length_dropLast_lt hlen⟩

/-- `dns_next_an_ask` is safe exactly if the data of the record are right. -/
theorem anAsk_safe_iff (hplen : plen ≤ 65535) (hbuf : 1 ≤ bufsiz) (hdat : 1 ≤ datbufsiz)
    (hdat' : datbufsiz < 2 ^ 64) {r : DnsCall DnsAnswer}
    (hr : DnsNextAnAskReturns m off remcnt plen bufsiz datbufsiz r) :
    AnswerSafe plen bufsiz datbufsiz r ↔ AnswerOk m plen bufsiz datbufsiz off remcnt := by
  obtain ⟨fuel, hr⟩ := hr
  unfold dnsNextAnAsk at hr
  unfold AnswerOk
  by_cases h0 : remcnt = 0
  · rw [if_pos h0] at hr
    obtain rfl := some.inj hr
    simp [h0, AnswerSafe, DnsCall.InBounds]
    omega
  rw [if_neg h0, bind_eq_some_iff] at hr
  obtain ⟨x, hx, hr⟩ := hr
  have hret : Returns (nameBody m plen bufsiz) (.start off) x := ⟨fuel, hx⟩
  have hstores := (stores_lt_iff hplen hret bufsiz).mpr ⟨hbuf, passes_self⟩
  simp only [h0, false_or]
  cases x with
  | error s =>
    obtain rfl := some.inj hr
    refine iff_of_true ⟨⟨hstores, ?_, by simp⟩, by simp⟩ fun e txt he =>
      absurd hret (he.not_error hplen)
    exact forall_mem_zero hdat
  | ok s =>
    have hdec := (returns_ok_iff hplen).mp ⟨s, hret, rfl, rfl⟩
    have hok : (∀ e txt, Decodes m plen bufsiz off e txt → e + 10 ≤ plen →
        DataOk m plen bufsiz datbufsiz e) ↔
          (s.off + 10 ≤ plen → DataOk m plen bufsiz datbufsiz s.off) := by
      refine ⟨fun h => h _ _ hdec, fun h e txt he => ?_⟩
      rw [(he.unique hplen hdec).1]
      exact h
    rw [hok]
    unfold anAskRest at hr
    by_cases hoff : s.off + 10 > plen
    · simp only [if_pos hoff, some.injEq] at hr
      subst hr
      refine iff_of_true ⟨⟨hstores, ?_, by simp⟩, by simp⟩ fun h => absurd h (by omega)
      exact forall_mem_zero hdat
    simp only [if_neg hoff] at hr
    have hle : s.off + 10 ≤ plen := Nat.not_lt.mp hoff
    simp only [hle, true_implies]
    by_cases htype : hdrGet16n m s.off ≠ 5
    · rw [if_pos htype, some.injEq] at hr
      subst hr
      exact anAskData_safe_iff hbuf hdat hplen hret hle htype
    · rw [if_neg htype] at hr
      exact anAskCname_safe_iff hbuf hdat hdat' hplen hret hle (not_not.mp htype) hr

end Calls

/-! ## Resolving a name -/

/-- The name at `off` itself has a label that runs past the end of the packet, by so little that its
end is a `uint16_t`. -/
def Overruns (m : Mem) (plen bufsiz off : ℕ) : Prop :=
  ∃ n q, Passes m plen bufsiz off n ∧ walk m plen off n = some q ∧ q.own = none ∧ q.pos < plen ∧
    ¬IsPointer m q.pos ∧ plen < q.pos + 1 + (m q.pos).toNat ∧ q.pos + 1 + (m q.pos).toNat < 65536

section Overrun

variable {m : Mem} {plen bufsiz off remcnt n : ℕ} {q : NamePos}

theorem walk_off_le (hoff : off ≤ plen) (hq : walk m plen off n = some q) : q.off ≤ plen := by
  induction n generalizing q with
  | zero =>
    obtain rfl := some.inj hq
    exact hoff
  | succ n ih =>
    obtain ⟨q0, hq0, hstep⟩ := walk_pred hq
    obtain ⟨l, hl, rfl⟩ := map_eq_some_iff.mp hstep
    have hle := ih hq0
    have hnext := wireLabel_next_lt hl
    unfold NamePos.off at hle ⊢
    by_cases hptr : IsPointer m q0.pos
    · have hlt : q0.pos + 2 ≤ plen := by
        simp only [wireLabel, if_pos hptr] at hl
        split_ifs at hl with h0 h1
        exact h1.1
      cases hown : q0.own with
      | none => simpa [hptr, hown] using hlt
      | some e => simpa [hptr, hown] using hle
    · cases hown : q0.own with
      | none => simpa [hptr, hown] using hnext.le
      | some e => simpa [hptr, hown] using hle

theorem plen_lt_off_iff (hplen : plen ≤ 65535) (hoff : off ≤ plen) {x : Except NameLoop NameLoop}
    (hr : Returns (nameBody m plen bufsiz) (.start off) x) :
    plen < (endState x).off ↔ Overruns m plen bufsiz off := by
  constructor
  · intro hlt
    obtain ⟨n, q, s, hread, hb, -⟩ := exists_read_of_returns hplen hr
    have hat := hread.position
    have hle : s.off ≤ plen := by
      rw [hat.off]
      exact walk_off_le hoff hread.walk
    by_cases hlt' : s.off < plen
    swap
    · rw [nameBody_done (Nat.not_lt.mp hlt')] at hb
      obtain rfl := Sum.inr.inj hb
      exact absurd hlt (Nat.not_lt.mpr hle)
    have hadv : s.advance.off ≤ s.off + 1 := by
      simp only [NameLoop.advance]
      split_ifs <;> omega
    by_cases h0 : (m s.laboff).toNat = 0
    · rw [nameBody_zero hlt' h0] at hb
      obtain rfl := Sum.inr.inj hb
      simp only [endState] at hlt
      omega
    by_cases hptr : IsPointer m s.laboff
    · rw [nameBody_pointer hlt' hptr] at hb
      have hadv' : s.laboff + 1 < plen → s.advance.advance.off ≤ plen := by
        intro h1
        simp only [NameLoop.advance]
        split_ifs with hj
        · exact hle
        · have := hat.own (Bool.eq_false_of_not_eq_true hj)
          omega
      split_ifs at hb with h1 h2
      · obtain rfl := Sum.inr.inj hb
        simp only [endState] at hlt
        omega
      · obtain rfl := Sum.inr.inj hb
        have := hadv' (by omega)
        simp only [endState] at hlt
        omega
      · cases x with
        | ok s' => exact absurd hb copyLabel_ne_ok
        | error s' =>
          obtain rfl := copyLabel_error hb
          have := hadv' (by omega)
          simp only [endState] at hlt
          omega
    · rw [nameBody_label hlt' h0 hptr] at hb
      cases x with
      | ok s' => exact absurd hb copyLabel_ne_ok
      | error s' =>
        obtain rfl := copyLabel_error hb
        simp only [endState, NameLoop.advance] at hlt
        cases hj : s.jmp with
        | true =>
          rw [hj] at hlt
          simp only [if_true] at hlt
          omega
        | false =>
          have hown : q.own = none := by
            have := hat.jmp
            rw [hj] at this
            simpa using this.symm
          rw [hj, hat.own hj, hat.laboff] at hlt
          simp only [Bool.false_eq_true, if_false] at hlt
          rw [hat.laboff] at hptr
          rw [hat.own hj, hat.laboff] at hlt'
          have hbyte := (m q.pos).toNat_lt
          have hsmall : q.pos + 1 + (m q.pos).toNat < 65536 := by
            by_contra hbig
            rw [Nat.mod_eq_sub_mod (by omega), Nat.mod_eq_of_lt (by omega)] at hlt
            omega
          rw [Nat.mod_eq_of_lt hsmall] at hlt
          exact ⟨n, q, hread.passes, hread.walk, hown, hlt', hptr, hlt, hsmall⟩
  · rintro ⟨n, q, hpass, hq, hown, hpos, hptr, hlt, hsmall⟩
    obtain ⟨s, q', hq', hsteps, hat⟩ := steps_of_passes hplen hpass
    obtain rfl := some.inj (hq.symm.trans hq')
    have hj : s.jmp = false := by rw [hat.jmp, hown]; rfl
    have hs := hat.own hj
    have hlen : (m s.laboff).toNat ≠ 0 := by
      rw [hat.laboff]
      omega
    have hb : ∃ s', nameBody m plen bufsiz s = .inr (.error s') ∧
        s'.off = q.pos + 1 + (m q.pos).toNat := by
      rw [nameBody_label (by rwa [hs, hat.laboff]) hlen (by rwa [hat.laboff]), copyLabel,
        if_pos (by simp only [NameLoop.advance, hat.laboff]; omega)]
      refine ⟨_, rfl, ?_⟩
      simp only [NameLoop.advance, hj, hs, hat.laboff, Bool.false_eq_true, if_false]
      exact Nat.mod_eq_of_lt hsmall
    obtain ⟨s', hb, hoff'⟩ := hb
    obtain rfl := hr.unique (returns_iff.mpr ⟨s, hsteps, hb⟩)
    simp only [endState, hoff']
    exact hlt

theorem dnsNext_off_le_iff (hplen : plen ≤ 65535) (hoff : off ≤ plen) {r : DnsCall DnsQuestion}
    (hr : DnsNextReturns m off remcnt plen bufsiz r) :
    r.off ≤ plen ↔ remcnt = 0 ∨ ¬Overruns m plen bufsiz off := by
  obtain ⟨fuel, hr⟩ := hr
  unfold dnsNext at hr
  by_cases h0 : remcnt = 0
  · rw [if_pos h0] at hr
    obtain rfl := some.inj hr
    simp [h0, hoff]
  rw [if_neg h0, map_eq_some_iff] at hr
  obtain ⟨x, hx, rfl⟩ := hr
  have hiff := plen_lt_off_iff hplen hoff ⟨fuel, hx⟩
  simp only [h0, false_or]
  rw [← hiff, Nat.not_lt]
  cases x with
  | error s => rfl
  | ok s =>
    simp only [dnsNextRest, endState]
    split_ifs with h4
    · rfl
    · simp only
      omega

end Overrun

/-- `recursive_resolve` has not aborted, all its calls are safe, and the result has room in its
buffer. -/
def Resolve.Safe (r : Resolve) (plen databufsiz : ℕ) : Prop :=
  r.ret ≠ none ∧ (∀ c ∈ r.questions, QuestionSafe plen 8192 c.call) ∧
    (∀ c ∈ r.answers, AnswerSafe plen 8192 databufsiz c.call) ∧
    ∀ a, r.ret = some (.ok a) → a.data.length < databufsiz

section Resolve

variable {fuel : ℕ} {m : Mem} {plen qclassexp databufsiz : ℕ}

theorem dnsNext_off_le_of_ok {off remcnt bufsiz : ℕ} {r : DnsCall DnsQuestion} {v : DnsQuestion}
    (hr : dnsNext fuel m off remcnt plen bufsiz = some r) (hok : r.ret = .ok v) : r.off ≤ plen := by
  unfold dnsNext at hr
  split_ifs at hr with h0
  · obtain rfl := some.inj hr
    simp at hok
  · obtain ⟨x, -, rfl⟩ := map_eq_some_iff.mp hr
    cases x with
    | error s => simp [dnsNextRest] at hok
    | ok s =>
      simp only [dnsNextRest] at hok ⊢
      split_ifs at hok ⊢ with h4
      simp only
      omega

theorem resolveScan_calls {nextbuf : List UInt8} {remcnt aoff : ℕ}
    {cs : List (DnsCallRecord DnsAnswer)} {e : ScanEnd}
    (h : resolveScan fuel m plen qclassexp databufsiz nextbuf remcnt aoff = some (cs, e)) :
    (∀ c ∈ cs, DnsNextAnAskReturns m c.off c.remcnt plen 8192 databufsiz c.call) ∧
      ∀ a, e = .ret (.ok a) → ∃ c ∈ cs, c.call.ret = .ok a := by
  induction remcnt generalizing aoff cs with
  | zero =>
    obtain ⟨r, hr, heq⟩ := map_eq_some_iff.mp h
    obtain ⟨rfl, rfl⟩ := Prod.mk.inj heq
    exact ⟨by simpa using ⟨fuel, hr⟩, by simp⟩
  | succ remcnt ih =>
    obtain ⟨r, hr, h⟩ := bind_eq_some_iff.mp h
    have hcall : DnsNextAnAskReturns m aoff (remcnt + 1) plen 8192 databufsiz r := ⟨fuel, hr⟩
    cases hret : r.ret with
    | error err =>
      simp only [hret, some.injEq, Prod.mk.injEq] at h
      obtain ⟨rfl, rfl⟩ := h
      exact ⟨by simpa using hcall, by simp⟩
    | ok a =>
      simp only [hret] at h
      split_ifs at h with h1 h2 h3
      · obtain ⟨⟨cs', e'⟩, hx, heq⟩ := map_eq_some_iff.mp h
        obtain ⟨rfl, rfl⟩ := Prod.mk.inj heq
        obtain ⟨ih1, ih2⟩ := ih hx
        refine ⟨forall_mem_cons.mpr ⟨hcall, ih1⟩, fun a ha => ?_⟩
        obtain ⟨c, hc, hca⟩ := ih2 a ha
        exact ⟨c, mem_cons_of_mem _ hc, hca⟩
      · obtain ⟨rfl, rfl⟩ := Prod.mk.inj (some.inj h)
        exact ⟨by simpa using hcall, by simp⟩
      · obtain ⟨rfl, rfl⟩ := Prod.mk.inj (some.inj h)
        exact ⟨by simpa using hcall, by simp⟩
      · obtain ⟨rfl, rfl⟩ := Prod.mk.inj (some.inj h)
        refine ⟨by simpa using hcall, fun a' ha' => ⟨_, mem_singleton_self _, ?_⟩⟩
        rw [hret, Except.ok.inj (ScanEnd.ret.inj ha')]

theorem resolveChain_calls {nextbuf : List UInt8} {aoff i : ℕ} {cs : List (DnsCallRecord DnsAnswer)}
    {ret : Except DnsErr DnsAnswer}
    (h : resolveChain fuel m plen qclassexp databufsiz aoff i nextbuf = some (cs, ret)) :
    (∀ c ∈ cs, DnsNextAnAskReturns m c.off c.remcnt plen 8192 databufsiz c.call) ∧
      ∀ a, ret = .ok a → ∃ c ∈ cs, c.call.ret = .ok a := by
  induction i generalizing nextbuf cs with
  | zero =>
    obtain ⟨rfl, rfl⟩ := Prod.mk.inj (some.inj h)
    exact ⟨by simp, by simp⟩
  | succ i ih =>
    obtain ⟨⟨cs', e⟩, hx, h⟩ := bind_eq_some_iff.mp h
    obtain ⟨hcs, hok⟩ := resolveScan_calls hx
    cases e with
    | ret r =>
      obtain ⟨rfl, rfl⟩ := Prod.mk.inj (some.inj h)
      exact ⟨hcs, fun a ha => hok a (by rw [ha])⟩
    | cname next =>
      obtain ⟨⟨cs'', r⟩, hy, heq⟩ := map_eq_some_iff.mp h
      obtain ⟨rfl, rfl⟩ := Prod.mk.inj heq
      obtain ⟨ih1, ih2⟩ := ih hy
      refine ⟨forall_mem_append.mpr ⟨hcs, ih1⟩, fun a ha => ?_⟩
      obtain ⟨c, hc, hca⟩ := ih2 a ha
      exact ⟨c, mem_append_right _ hc, hca⟩

/-- What `recursive_resolve` has done: its calls, and why it has aborted. -/
structure Resolve.Spec (m : Mem) (plen databufsiz : ℕ) (r : Resolve) : Prop where
  questions : ∀ c ∈ r.questions, DnsNextReturns m c.off c.remcnt plen 8192 c.call
  answers : ∀ c ∈ r.answers, DnsNextAnAskReturns m c.off c.remcnt plen 8192 databufsiz c.call
  second : ∀ c, r.questions[1]? = some c → c.off ≤ plen
  ret : r.ret ≠ none ↔ 12 ≤ plen ∧ ∀ c, r.questions[1]? = some c → c.call.off ≤ plen
  result : ∀ a, r.ret = some (.ok a) → ∃ c ∈ r.answers, c.call.ret = .ok a

variable {name : List UInt8} {r : Resolve}

theorem resolveRest_spec {q : DnsCallRecord DnsQuestion} (hlen : 12 ≤ plen)
    (hq : DnsNextReturns m q.off q.remcnt plen 8192 q.call) (hoff : q.call.off ≤ plen)
    (h : resolveRest fuel m plen qclassexp databufsiz name q = some r) :
    r.Spec m plen databufsiz := by
  obtain ⟨c, hc, h⟩ := bind_eq_some_iff.mp h
  have hquestions : ∀ c' ∈ [q, ⟨q.call.off, q.call.remcnt, c⟩],
      DnsNextReturns m c'.off c'.remcnt plen 8192 c'.call := by
    simp only [mem_cons, not_mem_nil, or_false, forall_eq_or_imp, forall_eq]
    exact ⟨hq, fuel, hc⟩
  cases hret : c.ret with
  | ok v =>
    simp only [hret, some.injEq] at h
    subst h
    refine ⟨hquestions, by simp, ?_, ?_, by simp⟩
    · simpa using hoff
    · simpa using ⟨hlen, dnsNext_off_le_of_ok hc hret⟩
  | error err =>
    simp only [hret, dnsNextInitAnAsk] at h
    by_cases hlt : plen < c.off
    · simp only [if_pos hlt, some.injEq] at h
      subst h
      refine ⟨hquestions, by simp, by simpa using hoff, ?_, by simp⟩
      simpa using fun _ => hlt
    · simp only [if_neg hlt, map_eq_some_iff] at h
      obtain ⟨⟨cs, ret⟩, hx, rfl⟩ := h
      obtain ⟨hcs, hok⟩ := resolveChain_calls hx
      refine ⟨hquestions, hcs, by simpa using hoff, ?_, fun a ha => hok a (some.inj ha)⟩
      simpa using ⟨hlen, Nat.not_lt.mp hlt⟩

theorem recursiveResolve_spec {recvd : ℕ}
    (hr : RecursiveResolveReturns m recvd name qclassexp databufsiz r) :
    r.Spec m (recvd % 65536) databufsiz := by
  obtain ⟨fuel, h⟩ := hr
  unfold recursiveResolve dnsNextInitQd at h
  by_cases hlen : recvd % 65536 < 12
  · simp only [if_pos hlen, some.injEq] at h
    subst h
    refine ⟨by simp, by simp, by simp, ?_, by simp⟩
    simpa using hlen
  simp only [if_neg hlen] at h
  obtain ⟨c, hc, h⟩ := bind_eq_some_iff.mp h
  have hquestion : DnsNextReturns m 12 (dnsQdcount m) (recvd % 65536) 8192 c := ⟨fuel, hc⟩
  have hdone : ∀ e : DnsErr, Resolve.Spec m (recvd % 65536) databufsiz
      ⟨some (.error e), [⟨12, dnsQdcount m, c⟩], []⟩ := by
    intro e
    refine ⟨by simpa using hquestion, by simp, by simp, ?_, by simp⟩
    simpa using hlen
  cases hret : c.ret with
  | error err =>
    simp only [hret, some.injEq] at h
    subst h
    exact hdone _
  | ok v =>
    simp only [hret] at h
    split_ifs at h with hname
    · obtain rfl := some.inj h
      exact hdone _
    · exact resolveRest_spec (Nat.not_lt.mp hlen) hquestion (dnsNext_off_le_of_ok hc hret) h

/-- `recursive_resolve` is safe exactly if the packet has a header, its calls are given good names
and data, and there is no second question whose name runs past the end of the packet. -/
theorem resolve_safe_iff {recvd : ℕ} (hdat : 1 ≤ databufsiz) (hdat' : databufsiz < 2 ^ 64)
    (hr : RecursiveResolveReturns m recvd name qclassexp databufsiz r) :
    r.Safe (recvd % 65536) databufsiz ↔ 12 ≤ recvd % 65536 ∧
      (∀ c ∈ r.questions, QuestionOk m (recvd % 65536) 8192 c.off c.remcnt) ∧
      (∀ c ∈ r.answers, AnswerOk m (recvd % 65536) 8192 databufsiz c.off c.remcnt) ∧
      ∀ c, r.questions[1]? = some c → c.remcnt = 0 ∨ ¬Overruns m (recvd % 65536) 8192 c.off := by
  have hspec := recursiveResolve_spec hr
  have hplen : recvd % 65536 ≤ 65535 := by omega
  have hquestions : ∀ c ∈ r.questions, QuestionSafe (recvd % 65536) 8192 c.call ↔
      QuestionOk m (recvd % 65536) 8192 c.off c.remcnt := fun c hc =>
    dnsNext_safe_iff hplen (by omega) (by omega) (hspec.questions c hc)
  have hanswers : ∀ c ∈ r.answers, AnswerSafe (recvd % 65536) 8192 databufsiz c.call ↔
      AnswerOk m (recvd % 65536) 8192 databufsiz c.off c.remcnt := fun c hc =>
    anAsk_safe_iff hplen (by omega) hdat hdat' (hspec.answers c hc)
  have hsecond : ∀ c, r.questions[1]? = some c → (c.call.off ≤ recvd % 65536 ↔
      c.remcnt = 0 ∨ ¬Overruns m (recvd % 65536) 8192 c.off) := fun c hc =>
    dnsNext_off_le_iff hplen (hspec.second c hc) (hspec.questions c (mem_of_getElem? hc))
  unfold Resolve.Safe
  rw [hspec.ret]
  constructor
  · rintro ⟨⟨hlen, hoff⟩, hq, ha, -⟩
    exact ⟨hlen, fun c hc => (hquestions c hc).mp (hq c hc),
      fun c hc => (hanswers c hc).mp (ha c hc), fun c hc => (hsecond c hc).mp (hoff c hc)⟩
  · rintro ⟨hlen, hq, ha, hoff⟩
    refine ⟨⟨hlen, fun c hc => (hsecond c hc).mpr (hoff c hc)⟩,
      fun c hc => (hquestions c hc).mpr (hq c hc),
      fun c hc => (hanswers c hc).mpr (ha c hc), fun a hret => ?_⟩
    obtain ⟨c, hc, hca⟩ := hspec.result a hret
    exact (((hanswers c hc).mpr (ha c hc)).2 a hca).2

end Resolve

/-- The calls that read a DNS message are safe exactly under these conditions on what they are
given. -/
theorem dns_reading_safe_iff (m : Mem) :
    (∀ off remcnt plen bufsiz r, plen ≤ 65535 → 1 ≤ bufsiz → bufsiz < 2 ^ 64 →
      DnsNextReturns m off remcnt plen bufsiz r →
      (QuestionSafe plen bufsiz r ↔ QuestionOk m plen bufsiz off remcnt)) ∧
    (∀ off remcnt plen bufsiz datbufsiz r, plen ≤ 65535 → 1 ≤ bufsiz → 1 ≤ datbufsiz →
      datbufsiz < 2 ^ 64 →
      DnsNextAnAskReturns m off remcnt plen bufsiz datbufsiz r →
      (AnswerSafe plen bufsiz datbufsiz r ↔ AnswerOk m plen bufsiz datbufsiz off remcnt)) ∧
    ∀ recvd name qclassexp databufsiz r, 1 ≤ databufsiz → databufsiz < 2 ^ 64 →
      RecursiveResolveReturns m recvd name qclassexp databufsiz r →
      (r.Safe (recvd % 65536) databufsiz ↔ 12 ≤ recvd % 65536 ∧
        (∀ c ∈ r.questions, QuestionOk m (recvd % 65536) 8192 c.off c.remcnt) ∧
        (∀ c ∈ r.answers, AnswerOk m (recvd % 65536) 8192 databufsiz c.off c.remcnt) ∧
        ∀ c, r.questions[1]? = some c → c.remcnt = 0 ∨ ¬Overruns m (recvd % 65536) 8192 c.off) :=
  ⟨fun _ _ _ _ _ hplen hbuf hbuf' hr => dnsNext_safe_iff hplen hbuf hbuf' hr,
    fun _ _ _ _ _ _ hplen hbuf hdat hdat' hr => anAsk_safe_iff hplen hbuf hdat hdat' hr,
    fun _ _ _ _ _ hdat hdat' hr => resolve_safe_iff hdat hdat' hr⟩

/-- A header with one question and one answer, and what follows it. -/
def dnsMsg (body : List UInt8) :
    Mem := fun i => ([0, 0, 0, 0, 0, 1, 0, 1, 0, 0, 0, 0] ++ body).getD i 0

/-- The answer `a` of type A, whose data of 5 bytes are missing. -/
def shortAnswer : List UInt8 := [1, 97, 0, 0, 1, 0, 1, 0, 0, 0, 0, 0, 5]

/-- The answer `a` with the CNAME `b`. -/
def cnameAnswer : List UInt8 := [1, 97, 0, 0, 5, 0, 1, 0, 0, 0, 0, 0, 3, 1, 98, 0]

/-- Four ways to leave the bounds: the root name, data that are not in the packet, a CNAME that is
checked against the size of the other buffer, and an empty packet. -/
theorem dns_reading_unsafe :
    (∃ r, DnsNextReturns (dnsMsg [0, 0, 1, 0, 1]) 12 1 17 64 r ∧ ¬QuestionSafe 17 64 r) ∧
    (∃ r, DnsNextAnAskReturns (dnsMsg shortAnswer) 12 1 25 64 64 r ∧ ¬AnswerSafe 25 64 64 r) ∧
    (∃ r, DnsNextAnAskReturns (dnsMsg cnameAnswer) 12 1 28 64 1 r ∧ ¬AnswerSafe 28 64 1 r) ∧
    ∃ r, RecursiveResolveReturns (dnsMsg []) 0 [97] 1 64 r ∧ ¬r.Safe 0 64 := by
  refine ⟨?_, ?_, ?_, ⟨none, [], []⟩, ⟨0, rfl⟩, fun h => h.1 rfl⟩
  · have h : (dnsNext 9 (dnsMsg [0, 0, 1, 0, 1]) 12 1 17 64).map DnsCall.stores =
        some [0, 18446744073709551615] := by decide +kernel
    obtain ⟨r, hr, hst⟩ := map_eq_some_iff.mp h
    refine ⟨r, ⟨9, hr⟩, fun hsafe => ?_⟩
    have := hsafe.1.1 18446744073709551615 (by rw [hst]; decide)
    omega
  · have h : (dnsNextAnAsk 9 (dnsMsg shortAnswer) 12 1 25 64 64).map
      (fun r => (r.ret.isOk, r.reads)) =
        some (true, [12, 13, 14, 15, 16, 17, 18, 19, 20, 21, 22, 23, 24, 25, 26, 27, 28, 29]) := by
      decide +kernel
    obtain ⟨r, hr, heq⟩ := map_eq_some_iff.mp h
    obtain ⟨hok, hreads⟩ := Prod.mk.inj heq
    refine ⟨r, ⟨9, hr⟩, fun hsafe => ?_⟩
    cases hret : r.ret with
    | error e =>
      rw [hret] at hok
      simp [Except.isOk, Except.toBool] at hok
    | ok v =>
      have := hsafe.1.2.2 v hret 29 (by rw [hreads]; decide)
      omega
  · have h : (dnsNextAnAsk 9 (dnsMsg cnameAnswer) 12 1 28 64 1).map DnsCall.datStores =
        some [0, 0, 1, 2, 1] := by decide +kernel
    obtain ⟨r, hr, hst⟩ := map_eq_some_iff.mp h
    refine ⟨r, ⟨9, hr⟩, fun hsafe => ?_⟩
    have := hsafe.1.2.1 2 (by rw [hst]; decide)
    omega

/-- The question `a` of type A, and an answer to it. -/
def sampleDnsMsg :
    Mem := dnsMsg ([1, 97, 0, 0, 1, 0, 1] ++ [1, 97, 0, 0, 1, 0, 1, 0, 0, 0, 0, 0, 4, 192, 0, 2, 1])

/-- Reading the question. -/
def sampleQuestionCall : DnsCall DnsQuestion :=
  ⟨.ok ⟨[97], 1, 1⟩, 19, 0, [12, 13, 14, 15, 16, 17, 18], [0, 0, 1, 2, 1], []⟩

/-- Reading the answer. -/
def sampleAnswerCall : DnsCall DnsAnswer :=
  ⟨.ok ⟨[97, 46], 1, 1, 0, [192, 0, 2, 1], 4⟩, 32, 0, range' 19 17, [0, 0, 1, 2], [0, 0, 1, 2, 3]⟩

/-- Resolving the name. -/
def sampleResolve : Resolve :=
  ⟨some (.ok ⟨[97, 46], 1, 1, 0, [192, 0, 2, 1], 4⟩),
    [⟨12, 1, sampleQuestionCall⟩, ⟨19, 0, ⟨.error .enoent, 19, 0, [], [0], []⟩⟩],
    [⟨19, 1, sampleAnswerCall⟩]⟩

theorem sampleQuestion_safe {bufsiz : ℕ} (h : 3 ≤ bufsiz) :
    QuestionSafe 36 bufsiz sampleQuestionCall := by
  have hstores : ∀ i ∈ sampleQuestionCall.stores, i < 3 := by decide
  refine ⟨⟨fun i hi => (hstores i hi).trans_le h, by decide, fun _ _ => by decide⟩, fun q hq => ?_⟩
  obtain rfl := Except.ok.inj hq
  exact Nat.lt_of_lt_of_le (by decide) h

theorem sampleAnswer_safe {bufsiz : ℕ} (h : 3 ≤ bufsiz) :
    AnswerSafe 36 bufsiz 64 sampleAnswerCall := by
  have hstores : ∀ i ∈ sampleAnswerCall.stores, i < 3 := by decide
  refine ⟨⟨fun i hi => (hstores i hi).trans_le h, by decide, fun _ _ => by decide⟩, fun a ha => ?_⟩
  obtain rfl := Except.ok.inj ha
  exact ⟨Nat.lt_of_lt_of_le (by decide) h, by decide⟩

theorem sampleResolve_safe : sampleResolve.Safe 36 64 := by
  refine ⟨by simp [sampleResolve], forall_mem_cons.mpr ⟨sampleQuestion_safe (by decide), ?_⟩,
    ?_, fun a ha => ?_⟩
  · rw [forall_mem_singleton]
    exact ⟨⟨by decide, by decide, fun v hv => nomatch hv⟩, fun q hq => nomatch hq⟩
  · exact forall_mem_singleton.mpr (sampleAnswer_safe (by decide))
  · obtain rfl := Except.ok.inj (some.inj ha)
    decide

/-- A question, an answer and the resolution of a name that are safe, and what follows for the
message. -/
theorem dns_reading_safe_sample :
    (DnsNextReturns sampleDnsMsg 12 1 36 64 sampleQuestionCall ∧ QuestionOk sampleDnsMsg 36 64 12 1)
      ∧
    (DnsNextAnAskReturns sampleDnsMsg 19 1 36 64 64 sampleAnswerCall ∧
      AnswerOk sampleDnsMsg 36 64 64 19 1) ∧
    RecursiveResolveReturns sampleDnsMsg 36 [97] 1 64 sampleResolve ∧
      ∀ c ∈ sampleResolve.answers, AnswerOk sampleDnsMsg 36 8192 64 c.off c.remcnt := by
  have hquestion : DnsNextReturns sampleDnsMsg 12 1 36 64 sampleQuestionCall := ⟨9, rfl⟩
  have hanswer : DnsNextAnAskReturns sampleDnsMsg 19 1 36 64 64 sampleAnswerCall := ⟨9, rfl⟩
  have hresolve : RecursiveResolveReturns sampleDnsMsg 36 [97] 1 64 sampleResolve := ⟨9, rfl⟩
  obtain ⟨h1, h2, h3⟩ := dns_reading_safe_iff sampleDnsMsg
  refine ⟨⟨hquestion, ?_⟩, ⟨hanswer, ?_⟩, hresolve, ?_⟩
  · exact (h1 _ _ _ _ _ (by decide) (by decide) (by decide) hquestion).mp
      (sampleQuestion_safe (by decide))
  · exact (h2 _ _ _ _ _ _ (by decide) (by decide) (by decide) (by decide) hanswer).mp
      (sampleAnswer_safe (by decide))
  · exact ((h3 36 _ _ _ _ (by decide) (by decide) hresolve).mp sampleResolve_safe).2.2.1

end Pptk.Iphdr
