import Pptk.Iphdr.DnsSafe

/-!
# Visiting the answers of a DNS response

The questions and answers of a response lie one after the other. After a call that succeeds, the
offset should be the first byte after the question or the record.

Main result: `dns_visits_iff`.
-/

namespace Pptk.Iphdr

open Lib List Option

/-! ## Calls that succeed -/

section Calls

variable {m : Mem} {plen bufsiz datbufsiz off remcnt : ℕ}

/-- When `dns_next` succeeds, and with which offset. -/
theorem dnsNext_ok_iff (hplen : plen ≤ 65535) {v : DnsQuestion} {o k : ℕ} :
    (∃ r, DnsNextReturns m off remcnt plen bufsiz r ∧ r.ret = .ok v ∧ r.off = o ∧ r.remcnt = k) ↔
    remcnt = k + 1 ∧ ∃ e txt, Decodes m plen bufsiz off e txt ∧ e + 4 ≤ plen ∧ o = e + 4 ∧
      v = ⟨txt.dropLast, hdrGet16n m e, hdrGet16n m (e + 2)⟩ := by
  constructor
  · rintro ⟨r, ⟨fuel, hr⟩, hok, rfl, rfl⟩
    unfold dnsNext at hr
    split_ifs at hr with h0
    · obtain rfl := some.inj hr
      simp at hok
    obtain ⟨x, hx, rfl⟩ := map_eq_some_iff.mp hr
    cases x with
    | error s => simp [dnsNextRest] at hok
    | ok s =>
      have hdec := (returns_ok_iff hplen).mp ⟨s, ⟨fuel, hx⟩, rfl, rfl⟩
      simp only [dnsNextRest] at hok ⊢
      split_ifs at hok ⊢ with h4
      exact ⟨by simp only; omega, s.off, s.str, hdec, by omega, rfl, (Except.ok.inj hok).symm⟩
  · rintro ⟨rfl, e, txt, hdec, h4, rfl, rfl⟩
    obtain ⟨s, ⟨fuel, hs⟩, rfl, rfl⟩ := (returns_ok_iff hplen).mpr hdec
    refine ⟨dnsNextRest m (k + 1) plen (.ok s), ⟨fuel, ?_⟩, ?_⟩
    · rw [dnsNext, if_neg k.succ_ne_zero, hs, map_some]
    · rw [dnsNextRest, if_neg (Nat.not_lt.mpr h4)]
      exact ⟨rfl, rfl, rfl⟩

/-- The result of `dns_next_an_ask` for a record whose name has the text `txt` and ends at `e`: the
offset that it leaves, and what it returns. -/
inductive AnswerAt (m : Mem) (plen bufsiz datbufsiz e : ℕ) (txt : List UInt8) : ℕ → DnsAnswer → Prop
  | data (htype : hdrGet16n m e ≠ 5) (hfit : hdrGet16n m (e + 8) + 2 ≤ datbufsiz) :
      AnswerAt m plen bufsiz datbufsiz e txt (e + 10)
        ⟨txt, hdrGet16n m e, hdrGet16n m (e + 2), hdrGet32n m (e + 4),
          bytesAt m (e + 10) (hdrGet16n m (e + 8)), hdrGet16n m (e + 8)⟩
  | cname {o : ℕ} {dat : List UInt8} (htype : hdrGet16n m e = 5)
      (hlen : hdrGet16n m (e + 8) ≠ 0 ∨ plen ≤ e + 10)
        (hdec : Decodes m plen bufsiz (e + 10) o dat) :
      AnswerAt m plen bufsiz datbufsiz e txt o
        ⟨txt, hdrGet16n m e, hdrGet16n m (e + 2), hdrGet32n m (e + 4), dat.dropLast, dat.length⟩

/-- When `dns_next_an_ask` succeeds, and with which offset. -/
theorem anAsk_ok_iff (hplen : plen ≤ 65535) {a : DnsAnswer} {o k : ℕ} :
    (∃ r, DnsNextAnAskReturns m off remcnt plen bufsiz datbufsiz r ∧ r.ret = .ok a ∧ r.off = o ∧
      r.remcnt = k) ↔
    remcnt = k + 1 ∧ ∃ e txt, Decodes m plen bufsiz off e txt ∧ e + 10 ≤ plen ∧
      AnswerAt m plen bufsiz datbufsiz e txt o a := by
  constructor
  · rintro ⟨r, ⟨fuel, hr⟩, hok, rfl, rfl⟩
    unfold dnsNextAnAsk at hr
    split_ifs at hr with h0
    · obtain rfl := some.inj hr
      simp at hok
    obtain ⟨x, hx, hr⟩ := bind_eq_some_iff.mp hr
    cases x with
    | error s =>
      obtain rfl := some.inj hr
      simp at hok
    | ok s =>
      have hdec := (returns_ok_iff hplen).mp ⟨s, ⟨fuel, hx⟩, rfl, rfl⟩
      simp only [anAskRest] at hr
      split_ifs at hr with h10 htype
      · obtain rfl := some.inj hr
        simp at hok
      · obtain rfl := some.inj hr
        simp only [anAskData] at hok ⊢
        split_ifs at hok ⊢ with hfit
        obtain rfl := Except.ok.inj hok
        exact ⟨by simp only; omega, s.off, s.str, hdec, by omega, .data htype (by omega)⟩
      · unfold anAskCname at hr
        split_ifs at hr with hrd
        · obtain rfl := some.inj hr
          simp at hok
        · obtain ⟨y, hy, rfl⟩ := map_eq_some_iff.mp hr
          cases y with
          | error d => simp [anAskCnameRest] at hok
          | ok d =>
            obtain rfl := Except.ok.inj hok
            have hdat := (returns_ok_iff hplen).mp ⟨d, ⟨fuel, hy⟩, rfl, rfl⟩
            exact ⟨by simp only [anAskCnameRest]; omega, s.off, s.str, hdec, by omega,
              .cname (not_not.mp htype) (by omega) hdat⟩
  · rintro ⟨rfl, e, txt, hdec, h10, hat⟩
    obtain ⟨s, ⟨fuel, hs⟩, rfl, rfl⟩ := (returns_ok_iff hplen).mpr hdec
    cases hat with
    | data htype hfit =>
      refine ⟨anAskData m (k + 1) datbufsiz s, ⟨fuel, ?_⟩, ?_⟩
      · rw [dnsNextAnAsk, if_neg k.succ_ne_zero, hs, bind_some, anAskRest, if_neg (by omega),
          if_pos htype]
      · unfold anAskData
        rw [if_neg (Nat.not_lt.mpr hfit)]
        exact ⟨rfl, rfl, rfl⟩
    | cname htype hlen hdat =>
      obtain ⟨d, ⟨fuel', hd⟩, rfl, rfl⟩ := (returns_ok_iff hplen).mpr hdat
      refine ⟨anAskCnameRest m (k + 1) s (.ok d), ⟨max fuel fuel', ?_⟩, rfl, rfl, rfl⟩
      rw [dnsNextAnAsk, if_neg k.succ_ne_zero, loop_mono hs (Nat.le_max_left ..), bind_some,
        anAskRest, if_neg (by omega), if_neg (not_not.mpr htype), anAskCname, if_neg (by omega),
        loop_mono hd (Nat.le_max_right ..), map_some]

end Calls

/-! ## Names -/

/-- There is a name at `p`, which itself ends at `e` (RFC 1035, section 4.1.4): labels of 1 to 63
bytes, and then a zero byte or a pointer to a name. The labels are `ls`. -/
inductive WireName (m : Mem) (plen : ℕ) : ℕ → ℕ → List (List UInt8) → Prop
  | root {p : ℕ} (hp : p < plen) (h0 : m p = 0) : WireName m plen p (p + 1) []
  | label {p e : ℕ} {ls : List (List UInt8)} (h0 : m p ≠ 0) (hlen : (m p).toNat < 64)
      (hrest : WireName m plen (p + 1 + (m p).toNat) e ls) :
      WireName m plen p e (bytesAt m (p + 1) (m p).toNat :: ls)
  | pointer {p e : ℕ} {ls : List (List UInt8)} (hptr : IsPointer m p) (hp : p + 1 < plen)
      (htarget : WireName m plen (pointerAt m p) e ls) : WireName m plen p (p + 2) ls

/-- The end of the name at `p` itself. -/
inductive OwnEnd (m : Mem) : ℕ → ℕ → Prop
  | root {p : ℕ} (h0 : m p = 0) : OwnEnd m p (p + 1)
  | label {p e : ℕ} (h0 : m p ≠ 0) (hptr : ¬IsPointer m p)
    (hrest : OwnEnd m (p + 1 + (m p).toNat) e) :
      OwnEnd m p e
  | pointer {p : ℕ} (hptr : IsPointer m p) : OwnEnd m p (p + 2)

section Names

variable {m : Mem} {plen bufsiz p e n : ℕ} {ls : List (List UInt8)} {q : NamePos}

theorem not_isPointer_of_lt (h : (m p).toNat < 64) : ¬IsPointer m p := by
  unfold IsPointer
  omega

theorem not_isPointer_zero (h : m p = 0) : ¬IsPointer m p := by
  unfold IsPointer
  rw [h]
  decide

theorem WireName.lt (h : WireName m plen p e ls) : p < plen := by
  induction h with
  | root hp _ => exact hp
  | label _ _ _ ih => omega
  | pointer _ hp _ _ => omega

theorem WireName.lt_end (h : WireName m plen p e ls) : p < e := by
  induction h with
  | root _ _ => omega
  | label _ _ _ ih => omega
  | pointer _ _ _ _ => omega

theorem WireName.ownEnd (h : WireName m plen p e ls) : OwnEnd m p e := by
  induction h with
  | root _ h0 => exact .root h0
  | label h0 hlen _ ih => exact .label h0 (not_isPointer_of_lt hlen) ih
  | pointer hptr _ _ _ => exact .pointer hptr

theorem OwnEnd.walk (h : OwnEnd m p e) (hq : Iphdr.walk m plen p n = some q) :
    q.own = some e ∨ q.own = none ∧ OwnEnd m q.pos e := by
  induction n generalizing q with
  | zero =>
    obtain rfl := some.inj hq
    exact .inr ⟨rfl, h⟩
  | succ n ih =>
    obtain ⟨q0, hq0, hstep⟩ := walk_pred hq
    obtain ⟨l, hl, rfl⟩ := map_eq_some_iff.mp hstep
    rcases ih hq0 with hown | ⟨hown, hend⟩
    · left
      simp [hown]
    · cases hend with
      | root h0 => simp [wireLabel, h0] at hl
      | pointer hptr => simp [hptr, hown]
      | label h0 hptr hrest =>
        have hne : ¬(m q0.pos).toNat = 0 := fun h => h0 (UInt8.toNat_inj.mp h)
        right
        simp only [wireLabel, if_neg hne, if_neg hptr] at hl
        split_ifs at hl
        obtain rfl := some.inj hl
        exact ⟨by simp [hptr, hown], hrest⟩

theorem Decodes.end_eq {e' : ℕ} {txt : List UInt8} (h : Decodes m plen bufsiz p e' txt)
    (hend : OwnEnd m p e) (hp : p < plen) : e' = e := by
  obtain ⟨n, q, -, hq, -, hlast⟩ := h
  have hpos : q.own = none → q.off < plen := by
    intro hown
    rw [NamePos.off, hown, getD_none]
    cases n with
    | zero =>
      obtain rfl := some.inj hq
      exact hp
    | succ n =>
      obtain ⟨q0, -, hstep⟩ := walk_pred hq
      obtain ⟨l, hl, rfl⟩ := map_eq_some_iff.mp hstep
      exact wireLabel_next_lt hl
  rcases hend.walk hq with hown | ⟨hown, hrest⟩
  · rcases hlast with ⟨-, rfl⟩ | ⟨-, -, rfl⟩
    · rw [NamePos.off, hown, getD_some]
    · rw [hown, getD_some]
  · rcases hlast with ⟨hle, -⟩ | ⟨-, h0, rfl⟩
    · exact absurd (hpos hown) (Nat.not_lt.mpr hle)
    · rw [hown, getD_none]
      cases hrest with
      | root _ => rfl
      | label hne _ _ => exact absurd h0 hne
      | pointer hptr => exact absurd hptr (not_isPointer_zero h0)

end Names

/-! ## Names that can be read -/

/-- A name in which no pointer leads to another pointer or to the root. -/
inductive DirectName (m : Mem) (plen : ℕ) : ℕ → ℕ → List (List UInt8) → Prop
  | root {p : ℕ} (hp : p < plen) (h0 : m p = 0) : DirectName m plen p (p + 1) []
  | label {p e : ℕ} {ls : List (List UInt8)} (h0 : m p ≠ 0) (hlen : (m p).toNat < 64)
      (hrest : DirectName m plen (p + 1 + (m p).toNat) e ls) :
      DirectName m plen p e (bytesAt m (p + 1) (m p).toNat :: ls)
  | pointer {p e : ℕ} {ls : List (List UInt8)} (hptr : IsPointer m p) (hp : p + 1 < plen)
      (h0 : m (pointerAt m p) ≠ 0) (hlen : (m (pointerAt m p)).toNat < 64)
      (hrest : DirectName m plen (pointerAt m p + 1 + (m (pointerAt m p)).toNat) e ls) :
      DirectName m plen p (p + 2) (bytesAt m (pointerAt m p + 1) (m (pointerAt m p)).toNat :: ls)

/-- The text of a name: a dot after each label. -/
def dotted (ls : List (List UInt8)) : List UInt8 := ls.flatMap (· ++ [46])

section Direct

variable {m : Mem} {plen bufsiz off p e : ℕ} {ls : List (List UInt8)}

theorem DirectName.wireName (h : DirectName m plen p e ls) : WireName m plen p e ls := by
  induction h with
  | root hp h0 => exact .root hp h0
  | label h0 hlen _ ih => exact .label h0 hlen ih
  | pointer hptr hp h0 hlen _ ih => exact .pointer hptr hp (.label h0 hlen ih)

theorem dotted_cons (l : List UInt8) (ls : List (List UInt8)) :
    dotted (l :: ls) = l ++ [46] ++ dotted ls := by
  simp [dotted]

theorem appendLabel_eq_append {str : List UInt8} {l : WireLabel} (hstr : 0 ∉ str)
    (hl : 0 ∉ bytesAt m l.start l.len) :
    appendLabel m str l = str ++ (bytesAt m l.start l.len ++ [46]) := by
  rw [appendLabel_eq hstr, cstr_of_not_mem]
  simpa using hl

variable {q : NamePos}

theorem passes_label {n : ℕ} {l : WireLabel} (hpass : Passes m plen bufsiz off n)
    (hq : walk m plen off n = some q) (hl : wireLabel m plen q.pos = some l) (hoff : q.off < plen)
    (hroom : q.text.length + (l.len + 1 + (dotted ls).length) + 1 ≤ bufsiz) :
    ∃ q', q.step m plen = some q' ∧ Passes m plen bufsiz off (n + 1) ∧
      walk m plen off (n + 1) = some q' ∧
      q'.pos = l.next ∧ q'.own = (if IsPointer m q.pos then q.own <|> some (q.pos + 2) else q.own) ∧
      q'.text.length + (dotted ls).length + 1 ≤ bufsiz ∧
      (0 ∉ bytesAt m l.start l.len → q'.text = q.text ++ (bytesAt m l.start l.len ++ [46])) := by
  have hstep : q.step m plen = some ⟨l.next, appendLabel m q.text l,
      if IsPointer m q.pos then q.own <|> some (q.pos + 2) else q.own⟩ := by
    rw [NamePos.step, hl, map_some]
  have hle : (appendLabel m q.text l).length ≤ q.text.length + l.len + 1 := length_appendLabel_le
  refine ⟨_, hstep, (passes_succ hq hl hoff).mpr ⟨hpass, by omega⟩, (walk_succ hq).trans hstep, rfl,
    rfl, ?_, fun h => appendLabel_eq_append (zero_not_mem_walk hq) h⟩
  simp only
  omega

theorem NamePos.off_lt (hpos : q.pos < plen) (hown : q.own.getD e < plen) : q.off < plen := by
  unfold NamePos.off
  cases h : q.own with
  | none => exact hpos
  | some e' =>
    rw [h] at hown
    exact hown

theorem wireLabel_of_label (h0 : m p ≠ 0) (hlen : (m p).toNat < 64)
    (hlt : p + 1 + (m p).toNat < plen) : wireLabel m plen p = some ⟨p + 1, (m p).toNat⟩ := by
  have hne : ¬(m p).toNat = 0 := fun h => h0 (UInt8.toNat_inj.mp h)
  rw [wireLabel, if_neg hne, if_neg (not_isPointer_of_lt hlen), if_pos hlt]

theorem wireLabel_of_pointer (hptr : IsPointer m p) (hp : p + 1 < plen)
    (hlt : pointerAt m p + 1 + (m (pointerAt m p)).toNat < plen) :
    wireLabel m plen p = some ⟨pointerAt m p + 1, (m (pointerAt m p)).toNat⟩ := by
  have hne : ¬(m p).toNat = 0 := by
    unfold IsPointer at hptr
    omega
  rw [wireLabel, if_neg hne, if_pos hptr, if_pos ⟨hp, hlt⟩]

/-- A name is read to its end, from any place. Its text is that of its labels, if they have no zero
bytes and the name itself does not end where the packet ends. -/
theorem DirectName.extend (h : DirectName m plen p e ls) {n : ℕ}
    (hpass : Passes m plen bufsiz off n) (hq : walk m plen off n = some q) (hpos : q.pos = p)
    (hroom : q.text.length + (dotted ls).length + 1 ≤ bufsiz) :
    ∃ n' q', Passes m plen bufsiz off n' ∧ walk m plen off n' = some q' ∧
      (plen ≤ q'.off ∨ q'.off < plen ∧ m q'.pos = 0) ∧
      ((∀ l ∈ ls, 0 ∉ l) → q.own.getD e < plen → q'.text = q.text ++ dotted ls) := by
  have hp := h.wireName.lt
  induction h generalizing n q with
  | root _ h0 =>
    refine ⟨n, q, hpass, hq, ?_, fun _ _ => by simp [dotted]⟩
    rcases Nat.lt_or_ge q.off plen with hlt | hge
    · exact .inr ⟨hlt, by rwa [hpos]⟩
    · exact .inl hge
  | @label p e ls h0 hlen hrest ih =>
    by_cases hoff : q.off < plen
    swap
    · exact ⟨n, q, hpass, hq, .inl (Nat.not_lt.mp hoff),
        fun _ hlt => absurd (NamePos.off_lt (hpos ▸ hp) hlt) hoff⟩
    have hlt := hrest.wireName.lt
    have hl : wireLabel m plen q.pos = some ⟨p + 1, (m p).toNat⟩ := by
      rw [hpos]
      exact wireLabel_of_label h0 hlen hlt
    rw [dotted_cons] at hroom
    simp only [length_append, length_bytesAt, length_singleton] at hroom
    obtain ⟨q', -, hpass', hq', hpos', hown', hroom', htext⟩ := passes_label hpass hq hl hoff hroom
    obtain ⟨n'', q'', hpass'', hq'', hend, htext'⟩ := ih hpass' hq' hpos' hroom' hlt
    refine ⟨n'', q'', hpass'', hq'', hend, fun hls hown => ?_⟩
    rw [hpos, if_neg (not_isPointer_of_lt hlen)] at hown'
    rw [htext' (fun l hl => hls l (mem_cons_of_mem _ hl)) (hown' ▸ hown),
      htext (hls _ mem_cons_self), dotted_cons]
    simp
  | @pointer p e ls hptr hp' h0 hlen hrest ih =>
    by_cases hoff : q.off < plen
    swap
    · exact ⟨n, q, hpass, hq, .inl (Nat.not_lt.mp hoff),
        fun _ hlt => absurd (NamePos.off_lt (hpos ▸ hp) hlt) hoff⟩
    have hlt := hrest.wireName.lt
    have hl : wireLabel m plen q.pos = some ⟨pointerAt m p + 1, (m (pointerAt m p)).toNat⟩ := by
      rw [hpos]
      exact wireLabel_of_pointer hptr hp' hlt
    rw [dotted_cons] at hroom
    simp only [length_append, length_bytesAt, length_singleton] at hroom
    obtain ⟨q', -, hpass', hq', hpos', hown', hroom', htext⟩ := passes_label hpass hq hl hoff hroom
    obtain ⟨n'', q'', hpass'', hq'', hend, htext'⟩ := ih hpass' hq' hpos' hroom' hlt
    refine ⟨n'', q'', hpass'', hq'', hend, fun hls hown => ?_⟩
    have hown'' : q'.own.getD e < plen := by
      rw [hown', hpos, if_pos hptr]
      cases hqown : q.own with
      | none => simpa [hqown] using hown
      | some e' => simpa [hqown] using hown
    rw [htext' (fun l hl => hls l (mem_cons_of_mem _ hl)) hown'',
      htext (hls _ mem_cons_self), dotted_cons]
    simp

/-- Names are read if there is room and no pointer leads to a pointer or the root. -/
theorem DirectName.decodes (h : DirectName m plen p e ls)
    (hroom : (dotted ls).length + 1 ≤ bufsiz) :
    ∃ txt, Decodes m plen bufsiz p e txt ∧ ((∀ l ∈ ls, 0 ∉ l) → e < plen → txt = dotted ls) := by
  have hstart : walk m plen p 0 = some ⟨p, [], none⟩ := rfl
  have hroom' : ([] : List UInt8).length + (dotted ls).length + 1 ≤ bufsiz := by simpa using hroom
  obtain ⟨n, q, hpass, hq, hend, htext⟩ := h.extend (fun i hi => by omega) hstart rfl hroom'
  have hdec : ∃ e', Decodes m plen bufsiz p e' q.text := by
    rcases hend with hle | ⟨hlt, h0⟩
    · exact ⟨_, n, q, hpass, hq, rfl, .inl ⟨hle, rfl⟩⟩
    · exact ⟨_, n, q, hpass, hq, rfl, .inr ⟨hlt, h0, rfl⟩⟩
  obtain ⟨e', hdec⟩ := hdec
  obtain rfl := hdec.end_eq h.wireName.ownEnd h.wireName.lt
  exact ⟨q.text, hdec, fun hls he => by simpa using htext hls he⟩

end Direct

/-! ## Responses -/

/-- Where a question or a record begins, and where its name ends. -/
structure RecordPos where
  start : ℕ
  nameEnd : ℕ

/-- The length of the data of a record. -/
def RecordPos.rdlength (m : Mem) (r : RecordPos) : ℕ := hdrGet16n m (r.nameEnd + 8)

/-- The first byte after the data of a record. -/
def RecordPos.next (m : Mem) (r : RecordPos) : ℕ := r.nameEnd + 10 + r.rdlength m

/-- From `p` on there are the questions `rs`, and after them the position `e`. -/
def QuestionsAt (m : Mem) (plen : ℕ) : ℕ → List RecordPos → ℕ → Prop
  | p, [], e => e = p
  | p, r :: rs, e => r.start = p ∧ (∃ ls, WireName m plen r.start r.nameEnd ls) ∧
    r.nameEnd + 4 ≤ plen ∧ QuestionsAt m plen (r.nameEnd + 4) rs e

/-- From `p` on there are the records `rs`. The data of a CNAME are a name. -/
def AnswersAt (m : Mem) (plen : ℕ) : ℕ → List RecordPos → Prop
  | _, [] => True
  | p, r :: rs => r.start = p ∧ (∃ ls, WireName m plen r.start r.nameEnd ls) ∧ r.next m ≤ plen ∧
      (hdrGet16n m r.nameEnd = 5 → ∃ ls, WireName m plen (r.nameEnd + 10) (r.next m) ls) ∧
      AnswersAt m plen (r.next m) rs

/-- A well-formed response with the questions `qs`, and the answers `as` from `aoff` on. -/
structure Response (m : Mem) (plen : ℕ) (qs : List RecordPos) (aoff : ℕ) (as : List RecordPos) :
  Prop where
  header : 12 ≤ plen
  length : plen ≤ 65535
  qdcount : hdrGet16n m 4 = qs.length
  ancount : hdrGet16n m 6 = as.length
  questions : QuestionsAt m plen 12 qs aoff
  answers : AnswersAt m plen aoff as

/-- Calls of `dns_next` until there are no questions left, with the offsets after the calls. -/
inductive VisitsQuestions (m : Mem) (plen bufsiz : ℕ) : ℕ → ℕ → List ℕ → ℕ → Prop
  | done {off remcnt : ℕ} {r : DnsCall DnsQuestion} (hr : DnsNextReturns m off remcnt plen bufsiz r)
      (hend : r.ret = .error .enoent) : VisitsQuestions m plen bufsiz off remcnt [] r.off
  | next {off remcnt e : ℕ} {r : DnsCall DnsQuestion} {v : DnsQuestion} {os : List ℕ}
      (hr : DnsNextReturns m off remcnt plen bufsiz r) (hok : r.ret = .ok v)
      (hrest : VisitsQuestions m plen bufsiz r.off r.remcnt os e) :
      VisitsQuestions m plen bufsiz off remcnt (r.off :: os) e

/-- Calls of `dns_next_an_ask` until there are no records left, with the offsets after the calls. -/
inductive VisitsAnswers (m : Mem) (plen bufsiz datbufsiz : ℕ) : ℕ → ℕ → List ℕ → Prop
  | done {off remcnt : ℕ} {r : DnsCall DnsAnswer}
      (hr : DnsNextAnAskReturns m off remcnt plen bufsiz datbufsiz r)
      (hend : r.ret = .error .enoent) : VisitsAnswers m plen bufsiz datbufsiz off remcnt []
  | next {off remcnt : ℕ} {r : DnsCall DnsAnswer} {a : DnsAnswer} {os : List ℕ}
      (hr : DnsNextAnAskReturns m off remcnt plen bufsiz datbufsiz r) (hok : r.ret = .ok a)
      (hrest : VisitsAnswers m plen bufsiz datbufsiz r.off r.remcnt os) :
      VisitsAnswers m plen bufsiz datbufsiz off remcnt (r.off :: os)

/-- The questions are skipped with `dns_next`, and then `dns_next_an_ask` visits all answers: after
each call the offset is the first byte after the question or record. -/
def VisitsAll (m : Mem) (plen bufsiz datbufsiz : ℕ) (qs as : List RecordPos) : Prop :=
  ∃ off remcnt aoff ancount, dnsNextInitQd m plen = some (off, remcnt) ∧
    VisitsQuestions m plen bufsiz off remcnt (qs.map (·.nameEnd + 4)) aoff ∧
    dnsNextInitAnAsk m aoff plen = some ancount ∧
    VisitsAnswers m plen bufsiz datbufsiz aoff ancount (as.map (·.next m))

/-- The name of the record can be read. If it is a CNAME, its data can, too; if not, it has no data.
-/
def RecordPos.Visitable (m : Mem) (plen bufsiz datbufsiz : ℕ) (r : RecordPos) : Prop :=
  (∃ txt, Decodes m plen bufsiz r.start r.nameEnd txt) ∧
    if hdrGet16n m r.nameEnd = 5 then ∃ txt, Decodes m plen bufsiz (r.nameEnd + 10) (r.next m) txt
    else r.rdlength m = 0 ∧ 2 ≤ datbufsiz

section Visits

variable {m : Mem} {plen bufsiz datbufsiz : ℕ}

variable {off remcnt : ℕ} {qs : List RecordPos} {p e : ℕ}

theorem dnsNext_enoent_iff {r : DnsCall DnsQuestion}
    (hr : DnsNextReturns m off remcnt plen bufsiz r) : r.ret = .error .enoent ↔ remcnt = 0 := by
  obtain ⟨fuel, hr⟩ := hr
  unfold dnsNext at hr
  split_ifs at hr with h0
  · obtain rfl := some.inj hr
    simp [h0]
  · obtain ⟨x, -, rfl⟩ := map_eq_some_iff.mp hr
    simp only [h0, iff_false]
    cases x with
    | error s => simp [dnsNextRest]
    | ok s =>
      simp only [dnsNextRest]
      split_ifs <;> simp

theorem anAsk_enoent_iff {r : DnsCall DnsAnswer}
    (hr : DnsNextAnAskReturns m off remcnt plen bufsiz datbufsiz r) :
    r.ret = .error .enoent ↔ remcnt = 0 := by
  obtain ⟨fuel, hr⟩ := hr
  unfold dnsNextAnAsk at hr
  split_ifs at hr with h0
  · obtain rfl := some.inj hr
    simp [h0]
  · obtain ⟨x, -, hr⟩ := bind_eq_some_iff.mp hr
    simp only [h0, iff_false]
    cases x with
    | error s =>
      obtain rfl := some.inj hr
      simp
    | ok s =>
      simp only [anAskRest] at hr
      split_ifs at hr
      · obtain rfl := some.inj hr
        simp
      · obtain rfl := some.inj hr
        simp only [anAskData]
        split_ifs <;> simp
      · unfold anAskCname at hr
        split_ifs at hr
        · obtain rfl := some.inj hr
          simp
        · obtain ⟨y, -, rfl⟩ := map_eq_some_iff.mp hr
          cases y <;> simp [anAskCnameRest]

theorem visitsQuestions_iff (hplen : plen ≤ 65535) {k : ℕ} (hqs : QuestionsAt m plen p qs e) :
    VisitsQuestions m plen bufsiz p k (qs.map (·.nameEnd + 4)) e ↔
      k = qs.length ∧ ∀ r ∈ qs, ∃ txt, Decodes m plen bufsiz r.start r.nameEnd txt := by
  induction qs generalizing p k with
  | nil =>
    obtain rfl := hqs
    constructor
    · intro h
      cases h with
      | done hr hend => exact ⟨(dnsNext_enoent_iff hr).mp hend, by simp⟩
    · rintro ⟨rfl, -⟩
      have hr : DnsNextReturns m e 0 plen bufsiz ⟨.error .enoent, e, 0, [], [0], []⟩ := ⟨0, rfl⟩
      exact .done hr rfl
  | cons r rs ih =>
    obtain ⟨rfl, ⟨ls, hname⟩, h4, hrest⟩ := hqs
    have ih := @ih (r.nameEnd + 4) (k - 1) hrest
    constructor
    · intro h
      rw [map_cons] at h
      generalize ho : r.nameEnd + 4 = o at h
      cases h with
      | @next _ _ _ c v os hc hok hvisit =>
        obtain ⟨hk, e', txt, hdec, -, he, -⟩ := (dnsNext_ok_iff hplen).mp ⟨c, hc, hok, rfl, rfl⟩
        obtain rfl : e' = r.nameEnd := by omega
        rw [← ho, show c.remcnt = k - 1 by omega] at hvisit
        obtain ⟨hlen, hall⟩ := ih.mp hvisit
        refine ⟨by rw [length_cons]; omega, ?_⟩
        simp only [mem_cons, forall_eq_or_imp]
        exact ⟨⟨txt, hdec⟩, hall⟩
    · rintro ⟨hk, hall⟩
      simp only [mem_cons, forall_eq_or_imp] at hall
      obtain ⟨⟨txt, hdec⟩, hall⟩ := hall
      rw [length_cons] at hk
      obtain ⟨c, hc, hok, hoff, hrem⟩ :=
        (dnsNext_ok_iff hplen).mpr ⟨hk, r.nameEnd, txt, hdec, h4, rfl, rfl⟩
      have hvisit := ih.mpr ⟨by omega, hall⟩
      rw [show k - 1 = c.remcnt by omega, ← hoff] at hvisit
      rw [map_cons, ← hoff]
      exact .next hc hok hvisit

/-- A record is visited as it should be exactly if it is visitable. -/
theorem answerAt_next_iff {r : RecordPos} {ls : List (List UInt8)}
    (hname : WireName m plen r.start r.nameEnd ls) (hnext : r.next m ≤ plen)
    (hcname : hdrGet16n m r.nameEnd = 5 → ∃ ls, WireName m plen (r.nameEnd + 10) (r.next m) ls) :
    (∃ e txt a, Decodes m plen bufsiz r.start e txt ∧ e + 10 ≤ plen ∧
      AnswerAt m plen bufsiz datbufsiz e txt (r.next m) a) ↔
        r.Visitable m plen bufsiz datbufsiz := by
  unfold RecordPos.Visitable
  have hle : r.nameEnd + 10 ≤ r.next m := Nat.le_add_right ..
  constructor
  · rintro ⟨e, txt, a, hdec, -, hat⟩
    obtain rfl := hdec.end_eq hname.ownEnd hname.lt
    refine ⟨⟨txt, hdec⟩, ?_⟩
    generalize ho : r.next m = o at hat
    cases hat with
    | data htype hfit =>
      rw [if_neg htype]
      unfold RecordPos.next at ho
      unfold RecordPos.rdlength at ho ⊢
      omega
    | @cname o dat htype hlen hdat =>
      rw [if_pos htype]
      exact ⟨dat, hdat⟩
  · rintro ⟨⟨txt, hdec⟩, hdata⟩
    split_ifs at hdata with htype
    · obtain ⟨dat, hdat⟩ := hdata
      obtain ⟨ls', hdname⟩ := hcname htype
      refine ⟨r.nameEnd, txt, _, hdec, by omega, .cname htype (.inl ?_) hdat⟩
      -- a name has at least one byte
      intro h0
      have hlt := hdname.lt_end
      unfold RecordPos.next RecordPos.rdlength at hlt
      omega
    · obtain ⟨hrd, hdat⟩ := hdata
      have hnext' : r.next m = r.nameEnd + 10 := by rw [RecordPos.next, hrd]
      unfold RecordPos.rdlength at hrd
      rw [hnext']
      exact ⟨r.nameEnd, txt, _, hdec, by omega, .data htype (by omega)⟩

theorem visitsAnswers_iff (hplen : plen ≤ 65535) {as : List RecordPos} {k : ℕ}
    (has : AnswersAt m plen p as) :
    VisitsAnswers m plen bufsiz datbufsiz p k (as.map (·.next m)) ↔
      k = as.length ∧ ∀ r ∈ as, r.Visitable m plen bufsiz datbufsiz := by
  induction as generalizing p k with
  | nil =>
    constructor
    · intro h
      cases h with
      | done hr hend => exact ⟨(anAsk_enoent_iff hr).mp hend, by simp⟩
    · rintro ⟨rfl, -⟩
      have hr : DnsNextAnAskReturns m p 0 plen bufsiz datbufsiz ⟨.error .enoent, p, 0, [], [0],
        [0]⟩ := ⟨0, rfl⟩
      exact .done hr rfl
  | cons r rs ih =>
    obtain ⟨rfl, ⟨ls, hname⟩, hnext, hcname, hrest⟩ := has
    have ih := @ih (r.next m) (k - 1) hrest
    have hiff : (∃ e txt a, Decodes m plen bufsiz r.start e txt ∧ e + 10 ≤ plen ∧
        AnswerAt m plen bufsiz datbufsiz e txt (r.next m) a) ↔
          r.Visitable m plen bufsiz datbufsiz :=
      answerAt_next_iff hname hnext hcname
    constructor
    · intro h
      rw [map_cons] at h
      generalize ho : r.next m = o at h
      cases h with
      | @next _ _ c a os hc hok hvisit =>
        obtain ⟨hk, e, txt, hdec, h10, hat⟩ := (anAsk_ok_iff hplen).mp ⟨c, hc, hok, rfl, rfl⟩
        rw [← ho, show c.remcnt = k - 1 by omega] at hvisit
        rw [← ho] at hat
        obtain ⟨hlen, hall⟩ := ih.mp hvisit
        refine ⟨by rw [length_cons]; omega, ?_⟩
        simp only [mem_cons, forall_eq_or_imp]
        exact ⟨hiff.mp ⟨e, txt, a, hdec, h10, hat⟩, hall⟩
    · rintro ⟨hk, hall⟩
      simp only [mem_cons, forall_eq_or_imp] at hall
      obtain ⟨hr, hall⟩ := hall
      rw [length_cons] at hk
      obtain ⟨e, txt, a, hdec, h10, hat⟩ := hiff.mpr hr
      obtain ⟨c, hc, hok, hoff, hrem⟩ := (anAsk_ok_iff hplen).mpr ⟨hk, e, txt, hdec, h10, hat⟩
      have hvisit := ih.mpr ⟨by omega, hall⟩
      rw [show k - 1 = c.remcnt by omega, ← hoff] at hvisit
      rw [map_cons, ← hoff]
      exact .next hc hok hvisit

theorem VisitsQuestions.unique_end {os : List ℕ}
    (h : VisitsQuestions m plen bufsiz off remcnt os e) : e = os.getLastD off := by
  induction h with
  | @done off remcnt r hr hend =>
    have h0 := (dnsNext_enoent_iff hr).mp hend
    obtain ⟨fuel, hr⟩ := hr
    rw [dnsNext, if_pos h0, some.injEq] at hr
    rw [← hr]
    rfl
  | @next off remcnt e r v os _ _ _ ih => rw [ih, getLastD_cons]

theorem QuestionsAt.end_eq (h : QuestionsAt m plen p qs e) :
    e = (qs.map (·.nameEnd + 4)).getLastD p := by
  induction qs generalizing p with
  | nil => exact h
  | cons r rs ih => rw [map_cons, getLastD_cons, ← ih h.2.2.2]

theorem QuestionsAt.end_le (hp : p ≤ plen) (h : QuestionsAt m plen p qs e) : e ≤ plen := by
  induction qs generalizing p with
  | nil => exact (show e = p from h) ▸ hp
  | cons r rs ih => exact ih h.2.2.1 h.2.2.2

end Visits

/-- The answers of a well-formed response are visited as they should be exactly if there are less
than 256 questions and less than 256 answers, all names can be read, and all records that are no
CNAMEs have no data. -/
theorem dns_visits_iff {m : Mem} {plen aoff : ℕ} {qs as : List RecordPos}
    (h : Response m plen qs aoff as) (bufsiz datbufsiz : ℕ) :
    VisitsAll m plen bufsiz datbufsiz qs as ↔
      qs.length < 256 ∧ as.length < 256 ∧
        (∀ r ∈ qs, ∃ txt, Decodes m plen bufsiz r.start r.nameEnd txt) ∧
        ∀ r ∈ as, r.Visitable m plen bufsiz datbufsiz := by
  have hheader := h.header
  have hinit : dnsNextInitQd m plen = some (12, qs.length % 256) := by
    rw [dnsNextInitQd, if_neg (by omega), dnsQdcount, h.qdcount]
  have hinit' : dnsNextInitAnAsk m aoff plen = some (as.length % 256) := by
    rw [dnsNextInitAnAsk, if_neg (Nat.not_lt.mpr (h.questions.end_le hheader)), dnsAncount,
      h.ancount]
  have hmod : ∀ n : ℕ, n % 256 = n ↔ n < 256 := by
    intro n
    omega
  unfold VisitsAll
  constructor
  · rintro ⟨off, remcnt, aoff', ancount, hq, hvq, ha, hva⟩
    obtain ⟨rfl, rfl⟩ := Prod.mk.inj (some.inj (hinit.symm.trans hq))
    obtain rfl : aoff' = aoff := hvq.unique_end.trans h.questions.end_eq.symm
    obtain rfl := some.inj (hinit'.symm.trans ha)
    obtain ⟨hqs, hqn⟩ := (visitsQuestions_iff h.length h.questions).mp hvq
    obtain ⟨has, han⟩ := (visitsAnswers_iff h.length h.answers).mp hva
    exact ⟨(hmod _).mp hqs, (hmod _).mp has, hqn, han⟩
  · rintro ⟨hqs, has, hqn, han⟩
    exact ⟨12, _, aoff, _, hinit,
      (visitsQuestions_iff h.length h.questions).mpr ⟨(hmod _).mpr hqs, hqn⟩, hinit',
      (visitsAnswers_iff h.length h.answers).mpr ⟨(hmod _).mpr has, han⟩⟩

/-- The question `a`, and an answer with its name, with the given type and data. -/
def oneAnswer (qtype : UInt8) (data : List UInt8) : Mem :=
  dnsMsg ([1, 97, 0, 0, 1, 0, 1] ++ [192, 12, 0, qtype, 0, 1, 0, 0, 0, 0, 0,
    UInt8.ofNat data.length] ++ data)

theorem oneAnswer_question (qtype : UInt8) (data : List UInt8) {plen : ℕ} (hplen : 14 < plen) :
    DirectName (oneAnswer qtype data) plen 12 15 [[97]] := by
  have h12 : oneAnswer qtype data 12 = 1 := rfl
  have hroot : DirectName (oneAnswer qtype data) plen 14 15 [] := .root hplen rfl
  exact .label (by rw [h12]; decide) (by rw [h12]; decide) hroot

theorem oneAnswer_name (qtype : UInt8) (data : List UInt8) {plen : ℕ} (hplen : 20 < plen) :
    DirectName (oneAnswer qtype data) plen 19 21 [[97]] := by
  have h19 : oneAnswer qtype data 19 = 192 := rfl
  have h20 : oneAnswer qtype data 20 = 12 := rfl
  have h12 : oneAnswer qtype data 12 = 1 := rfl
  have hptr : pointerAt (oneAnswer qtype data) 19 = 12 := by
    rw [pointerAt, h19, h20]
    rfl
  have hroot : DirectName (oneAnswer qtype data) plen
      (pointerAt (oneAnswer qtype data) 19 + 1 +
        (oneAnswer qtype data (pointerAt (oneAnswer qtype data) 19)).toNat)
      15 [] := by
    rw [hptr, h12]
    exact .root (show 14 < plen by omega) rfl
  have h := DirectName.pointer (by unfold IsPointer; rw [h19]; decide) hplen
    (by rw [hptr, h12]; decide)
    (by rw [hptr, h12]; decide) hroot
  rw [hptr] at h
  exact h

theorem oneAnswer_response {qtype : UInt8} {data : List UInt8} (hlen : data.length < 256)
    (hcname : hdrGet16n (oneAnswer qtype data) 21 = 5 →
      ∃ ls, WireName (oneAnswer qtype data) (31 + data.length) 31 (31 + data.length) ls) :
    Response (oneAnswer qtype data) (31 + data.length) [⟨12, 15⟩] 19 [⟨19, 21⟩] := by
  have hrd : RecordPos.next (oneAnswer qtype data) ⟨19, 21⟩ = 31 + data.length := by
    have hbyte : (UInt8.ofNat data.length).toNat = data.length := by
      rw [UInt8.toNat_ofNat']
      exact Nat.mod_eq_of_lt hlen
    change 31 + (256 * 0 + (UInt8.ofNat data.length).toNat) = _
    rw [hbyte]
    omega
  refine ⟨by omega, by omega, rfl, rfl, ⟨rfl, ⟨_, (oneAnswer_question _ _ (by omega)).wireName⟩, ?_,
    rfl⟩, rfl, ⟨_, (oneAnswer_name _ _ (by omega)).wireName⟩, hrd.le, ?_, trivial⟩
  · change 19 ≤ _
    omega
  · rw [hrd]
    exact hcname

/-- An A record is not visited as it should be: the offset stays at the first byte of its data. -/
theorem dns_misses_data : ∃ m plen qs aoff as, Response m plen qs aoff as ∧ as.length = 1 ∧
    ¬VisitsAll m plen 64 64 qs as := by
  have hresp : Response (oneAnswer 1 [127, 0, 0, 1]) 35 [⟨12, 15⟩] 19 [⟨19, 21⟩] :=
    oneAnswer_response (by decide) fun h => absurd h (by decide)
  refine ⟨_, _, _, _, _, hresp, rfl, ?_⟩
  rintro ⟨off, remcnt, aoff, ancount, hq, hvq, ha, hva⟩
  obtain ⟨rfl, rfl⟩ := Prod.mk.inj (some.inj hq)
  obtain rfl : aoff = 19 := hvq.unique_end
  obtain ⟨-, hall⟩ := (visitsAnswers_iff hresp.length hresp.answers).mp hva
  obtain ⟨-, hdata⟩ := hall _ (mem_singleton_self _)
  rw [if_neg (by decide)] at hdata
  exact absurd hdata.1 (by decide)

/-- A CNAME record is. -/
theorem dns_visits_cname : VisitsAll (oneAnswer 5 [1, 98, 0]) 34 64 64 [⟨12, 15⟩] [⟨19, 21⟩] := by
  have hcname : DirectName (oneAnswer 5 [1, 98, 0]) 34 31 34 [[98]] :=
    .label (by decide) (by decide) (.root (by decide) rfl)
  have hresp : Response (oneAnswer 5 [1, 98, 0]) 34 [⟨12, 15⟩] 19 [⟨19, 21⟩] :=
    oneAnswer_response (by decide) fun _ => ⟨_, hcname.wireName⟩
  obtain ⟨txt, hdec, -⟩ := (oneAnswer_question 5 [1, 98, 0] (show 14 < 34 by decide)).decodes
    (show (dotted [[97]]).length + 1 ≤ 64 by decide)
  obtain ⟨txt', hdec', -⟩ := (oneAnswer_name 5 [1, 98, 0] (show 20 < 34 by decide)).decodes
    (show (dotted [[97]]).length + 1 ≤ 64 by decide)
  obtain ⟨txt'', hdec'', -⟩ := hcname.decodes (show (dotted [[98]]).length + 1 ≤ 64 by decide)
  refine (dns_visits_iff hresp 64 64).mpr ⟨by decide, by decide, ?_, ?_⟩
  · simpa using ⟨txt, hdec⟩
  · simp only [mem_singleton, forall_eq, RecordPos.Visitable]
    rw [if_pos (by decide)]
    exact ⟨⟨txt', hdec'⟩, txt'', hdec''⟩

end Pptk.Iphdr
