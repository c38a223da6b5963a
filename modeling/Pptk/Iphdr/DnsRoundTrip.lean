import Pptk.Iphdr.DnsPut

/-!
# Reading a DNS message that has been written

Questions are written with `dns_put_next_qr` and then a record with `dns_put_next`, and they are
read with `dns_next` and `dns_next_an_ask`.

Main results: `dns_round_trip` and `dns_round_trip_fails`.
-/

namespace Pptk.Iphdr

open Lib List Option

/-! ## What is written and what is read -/

/-- A name that can be written. -/
structure PutName where
  labels : List (List UInt8)
  dot : Bool
  ne_nil : labels ≠ []
  valid : ∀ l ∈ labels, ValidLabel l

/-- The string that is passed. -/
def PutName.str (n : PutName) : List UInt8 := nameStr n.dot n.labels

structure PutQuestion where
  name : PutName
  qtype : UInt16
  qclass : UInt16

/-- A record that is no CNAME. -/
structure PutRecord where
  name : PutName
  qtype : UInt16
  qclass : UInt16
  ttl : UInt32
  rdata : List UInt8
  qtype_ne : qtype ≠ 5
  rdata_lt : rdata.length < 65536

/-- The questions are written one after the other. -/
def putQuestions (plen : ℕ) : Mem → ℕ → List PutQuestion → Option (Mem × ℕ)
  | m, off, [] => some (m, off)
  | m, off, q :: qs =>
    (dnsPutNextQr m off plen q.name.str q.qtype.toNat q.qclass.toNat).bind fun x =>
      putQuestions plen x.1 x.2 qs

/-- The record is written. -/
def putRecord (plen : ℕ) (m : Mem) (off : ℕ) (r : PutRecord) : Option (Mem × ℕ) :=
  dnsPutNext m off plen r.name.str r.qtype.toNat r.qclass.toNat r.ttl.toNat r.rdata

/-- What `dns_next` should give: no dot at the end of the name. -/
def PutQuestion.read (q : PutQuestion) : DnsQuestion :=
  ⟨nameStr false q.name.labels, q.qtype.toNat, q.qclass.toNat⟩

/-- What `dns_next_an_ask` should give: a dot at the end of the name. -/
def PutRecord.read (r : PutRecord) : DnsAnswer :=
  ⟨nameStr true r.name.labels, r.qtype.toNat, r.qclass.toNat, r.ttl.toNat, r.rdata, r.rdata.length⟩

/-- The calls of `dns_next` from `off` on give the questions `vs`, and `*off` is `e` after them. -/
inductive ReadsQuestions (m : Mem) (plen bufsiz : ℕ) : ℕ → List DnsQuestion → ℕ → Prop
  | nil {off : ℕ} : ReadsQuestions m plen bufsiz off [] off
  | cons {off e : ℕ} {v : DnsQuestion} {vs : List DnsQuestion} {r : DnsCall DnsQuestion}
      (hr : DnsNextReturns m off (vs.length + 1) plen bufsiz r) (hok : r.ret = .ok v)
      (hrest : ReadsQuestions m plen bufsiz r.off vs e) : ReadsQuestions m plen bufsiz off
        (v :: vs) e

/-- The questions `vs` and then the record `a` are read from offset 12 on. -/
def ReadsBack (m : Mem) (plen bufsiz datbufsiz : ℕ) (vs : List DnsQuestion) (a : DnsAnswer) :
    Prop :=
  ∃ e r, ReadsQuestions m plen bufsiz 12 vs e ∧ DnsNextAnAskReturns m e 1 plen bufsiz datbufsiz r ∧
    r.ret = .ok a

/-- Every pointer that is written for the questions and the record leads to a label, and there is no
pointer after the last label of the name to which it leads. -/
def AllDirect (plen : ℕ) (r : PutRecord) : Mem → ℕ → List PutQuestion → Prop
  | m, off, [] => PointersDirect plen r.name.dot m off r.name.labels
  | m, off, q :: qs =>
    PointersDirect plen q.name.dot m off q.name.labels ∧
      ∀ x, dnsPutNextQr m off plen q.name.str q.qtype.toNat q.qclass.toNat = some x →
        AllDirect plen r x.1 x.2 qs

/-- The buffer has room for the name, a dot and a zero byte. -/
def PutName.Fits (n : PutName) (bufsiz : ℕ) : Prop := (nameStr true n.labels).length + 1 ≤ bufsiz

instance (n : PutName) (bufsiz : ℕ) : Decidable (n.Fits bufsiz) :=
    inferInstanceAs (Decidable (_ ≤ _))

/-! ## Names -/

theorem dotted_eq_nameStr (ls : List (List UInt8)) : dotted ls = nameStr true ls := by
  induction ls with
  | nil => rfl
  | cons l ls ih =>
    cases ls with
    | nil => simp [dotted, nameStr]
    | cons l' ls => rw [dotted_cons, ih, nameStr, append_assoc, singleton_append]

theorem nameStr_dropLast {ls : List (List UInt8)} (hls : ls ≠ []) :
    (nameStr true ls).dropLast = nameStr false ls := by
  induction ls with
  | nil => exact absurd rfl hls
  | cons l ls ih =>
    cases ls with
    | nil => simp [nameStr]
    | cons l' ls =>
      have hne : nameStr true (l' :: ls) ≠ [] := by
        cases ls <;> simp [nameStr]
      rw [nameStr, nameStr, ← ih (by simp), dropLast_append_of_ne_nil (by simp),
        dropLast_cons_of_ne_nil hne]

section RoundTrip

variable {m m1 m2 : Mem} {off off1 off2 plen len bufsiz datbufsiz : ℕ}

theorem PutName.decodes (n : PutName) {e : ℕ} (h : DirectName m len off e n.labels)
    (hfits : n.Fits bufsiz) (he : e < len) :
    Decodes m len bufsiz off e (nameStr true n.labels) := by
  unfold PutName.Fits at hfits
  rw [← dotted_eq_nameStr] at hfits ⊢
  obtain ⟨txt, hdec, htxt⟩ := h.decodes hfits
  rwa [← htxt (fun l hl => (n.valid l hl).zero_not_mem) he]

theorem PutQuestion.reads (q : PutQuestion) {k : ℕ} (hlen : len ≤ 65535)
    (hput : dnsPutNextQr m off plen q.name.str q.qtype.toNat q.qclass.toNat = some (m1, off1))
    (hdirect : PointersDirect plen q.name.dot m off q.name.labels) (hsame : SameBelow off1 m1 m2)
    (hoff : off1 ≤ len) (hfits : q.name.Fits bufsiz) :
    ∃ r, DnsNextReturns m2 off (k + 1) len bufsiz r ∧ r.ret = .ok q.read ∧ r.off = off1 := by
  obtain ⟨e, rfl, hname, -, htype, hclass⟩ := dnsPutNextQr_spec q.name.valid hput hdirect
  have hdec := q.name.decodes (hname.of_sameBelow hsame hoff) hfits (by omega)
  have hok : ∃ r, DnsNextReturns m2 off (k + 1) len bufsiz r ∧ r.ret = .ok q.read ∧ r.off = e + 4 ∧
      r.remcnt = k := by
    refine (dnsNext_ok_iff hlen).mpr ⟨rfl, e, _, hdec, hoff, rfl, ?_⟩
    rw [PutQuestion.read, nameStr_dropLast q.name.ne_nil, hsame.hdrGet16n (by omega),
      hsame.hdrGet16n (by omega), htype, hclass, Nat.mod_eq_of_lt q.qtype.toNat_lt,
      Nat.mod_eq_of_lt q.qclass.toNat_lt]
  obtain ⟨r, hr, hret, hroff, -⟩ := hok
  exact ⟨r, hr, hret, hroff⟩

theorem PutRecord.reads (r : PutRecord) (hlen : len ≤ 65535)
    (hput : putRecord plen m off r = some (m1, off1))
    (hdirect : PointersDirect plen r.name.dot m off r.name.labels) (hoff : off1 ≤ len)
    (hfits : r.name.Fits bufsiz) (hdat : r.rdata.length + 2 ≤ datbufsiz) :
    ∃ c, DnsNextAnAskReturns m1 off 1 len bufsiz datbufsiz c ∧ c.ret = .ok r.read := by
  obtain ⟨e, rfl, hname, hsame, htype, hclass, httl, hrd, hdata⟩ :=
    dnsPutNext_spec r.name.valid hput hdirect
  rw [Nat.mod_eq_of_lt r.qtype.toNat_lt] at htype
  rw [Nat.mod_eq_of_lt r.qclass.toNat_lt] at hclass
  rw [Nat.mod_eq_of_lt r.ttl.toNat_lt] at httl
  rw [Nat.mod_eq_of_lt r.rdata_lt] at hrd
  have hdec := r.name.decodes (hname.of_sameBelow (fun _ _ => rfl) hoff) hfits (by omega)
  have hne : hdrGet16n m1 e ≠ 5 := by
    rw [htype]
    intro h
    exact r.qtype_ne (UInt16.toNat_inj.mp h)
  have hok : ∃ c, DnsNextAnAskReturns m1 off 1 len bufsiz datbufsiz c ∧ c.ret = .ok r.read ∧
      c.off = e + 10 ∧ c.remcnt = 0 := by
    refine (anAsk_ok_iff hlen).mpr ⟨rfl, e, _, hdec, by omega, ?_⟩
    have hat := @AnswerAt.data m1 len bufsiz datbufsiz e (nameStr true r.name.labels) hne
      (show hdrGet16n m1 (e + 8) + 2 ≤ datbufsiz by omega)
    rwa [htype, hclass, httl, hrd, hdata] at hat
  obtain ⟨c, hc, hret, -⟩ := hok
  exact ⟨c, hc, hret⟩

variable {r : PutRecord} {qs : List PutQuestion}

theorem putQuestions_sameBelow (hput : putQuestions plen m off qs = some (m1, off1))
    (hdirect : AllDirect plen r m off qs) : off ≤ off1 ∧ SameBelow off m m1 := by
  induction qs generalizing m off with
  | nil =>
    obtain ⟨rfl, rfl⟩ := Prod.mk.inj (some.inj hput)
    exact ⟨le_rfl, fun _ _ => rfl⟩
  | cons q qs ih =>
    obtain ⟨⟨m', off'⟩, hq, hrest⟩ := bind_eq_some_iff.mp hput
    obtain ⟨e, rfl, hname, hsame, -⟩ := dnsPutNextQr_spec q.name.valid hq hdirect.1
    have hlt := hname.wireName.lt
    obtain ⟨hle, hsame'⟩ := ih hrest (hdirect.2 _ hq)
    exact ⟨by omega, hsame.trans hsame' (by omega)⟩

theorem AllDirect.record (hput : putQuestions plen m off qs = some (m1, off1))
    (hdirect : AllDirect plen r m off qs) :
    PointersDirect plen r.name.dot m1 off1 r.name.labels := by
  induction qs generalizing m off with
  | nil =>
    obtain ⟨rfl, rfl⟩ := Prod.mk.inj (some.inj hput)
    exact hdirect
  | cons q qs ih =>
    obtain ⟨x, hq, hrest⟩ := bind_eq_some_iff.mp hput
    exact ih hrest (hdirect.2 x hq)

/-- The questions are read as they were written. -/
theorem reads_of_putQuestions (hlen : len ≤ 65535)
    (hput : putQuestions plen m off qs = some (m1, off1)) (hdirect : AllDirect plen r m off qs)
    (hsame : SameBelow off1 m1 m2) (hoff : off1 ≤ len) (hfits : ∀ q ∈ qs, q.name.Fits bufsiz) :
    ReadsQuestions m2 len bufsiz off (qs.map PutQuestion.read) off1 := by
  induction qs generalizing m off with
  | nil =>
    obtain ⟨rfl, rfl⟩ := Prod.mk.inj (some.inj hput)
    exact .nil
  | cons q qs ih =>
    obtain ⟨⟨m', off'⟩, hq, hrest⟩ := bind_eq_some_iff.mp hput
    obtain ⟨hle, hsame'⟩ := putQuestions_sameBelow hrest (hdirect.2 _ hq)
    obtain ⟨c, hc, hret, rfl⟩ := q.reads (k := (qs.map PutQuestion.read).length) hlen hq hdirect.1
      (hsame'.trans hsame hle) (show off' ≤ len by omega) (hfits q (by simp))
    exact .cons hc hret (ih hrest (hdirect.2 _ hq) fun q' hq' => hfits q' (by simp [hq']))

/-- Questions and a record are read as they were written, if every pointer that was written leads to
a label and there is no pointer after the last label of the name to which it leads. -/
theorem dns_round_trip (m : Mem) (plen : ℕ) (qs : List PutQuestion) (r : PutRecord)
    (hqs : putQuestions plen m 12 qs = some (m1, off1))
    (hr : putRecord plen m1 off1 r = some (m2, off2)) (hdirect : AllDirect plen r m 12 qs)
    (hoff : off2 ≤ len) (hlen : len ≤ 65535) (hfits : ∀ q ∈ qs, q.name.Fits bufsiz)
    (hfits' : r.name.Fits bufsiz) (hdat : r.rdata.length + 2 ≤ datbufsiz) :
    ReadsBack m2 len bufsiz datbufsiz (qs.map PutQuestion.read) r.read := by
  have hrec := hdirect.record hqs
  obtain ⟨e, hoff2, hname, hsame, -⟩ := dnsPutNext_spec r.name.valid hr hrec
  have hlt := hname.wireName.lt
  have hle : off1 ≤ len := by omega
  obtain ⟨c, hc, hret⟩ := r.reads hlen hr hrec hoff hfits' hdat
  exact ⟨off1, c, reads_of_putQuestions hlen hqs hdirect hsame hle hfits, hc, hret⟩

end RoundTrip

/-! ## Messages with the name `a` -/

/-- The name `a`. -/
def nameA : PutName where
  labels := [[97]]
  dot := false
  ne_nil := by simp
  valid := by
    intro l hl
    obtain rfl := mem_singleton.mp hl
    exact ⟨by simp, by simp, by decide, by decide⟩

def questionA : PutQuestion := ⟨nameA, 1, 1⟩

def recordA : PutRecord := ⟨nameA, 1, 1, 0, [127, 0, 0, 1], by decide, by decide⟩

/-- A message in which only the identifier is not zero. -/
def withId (hi lo : UInt8) : Mem := fun i => [hi, lo].getD i 0

/-- The message with some questions and then the record `a`, and the offsets before and after the
record. -/
def putAll (m : Mem) (qs : List PutQuestion) : Option (ℕ × ℕ × List UInt8) :=
  (putQuestions 64 m 12 qs).bind fun x =>
    (putRecord 64 x.1 x.2 recordA).map fun y => (x.2, y.2, bytesAt y.1 0 21)

theorem putAll_eq_some {m : Mem} {qs : List PutQuestion} {off1 off2 : ℕ} {bytes : List UInt8}
    (h : putAll m qs = some (off1, off2, bytes)) :
    ∃ m1 m2, putQuestions 64 m 12 qs = some (m1, off1) ∧
      putRecord 64 m1 off1 recordA = some (m2, off2) ∧
      bytesAt m2 0 21 = bytes := by
  obtain ⟨⟨m1, o1⟩, h1, h⟩ := bind_eq_some_iff.mp h
  obtain ⟨⟨m2, o2⟩, h2, h⟩ := map_eq_some_iff.mp h
  dsimp only at h h2
  simp only [Prod.mk.injEq] at h
  obtain ⟨rfl, rfl, hbytes⟩ := h
  exact ⟨m1, m2, h1, h2, hbytes⟩

/-- The name `a` is written once and read twice. -/
theorem dns_round_trip_pointer : ∃ m2, ReadsBack m2 64 64 64 [questionA.read] recordA.read := by
  have hput : putAll (withId 0 0) [questionA] =
      some (19, 35, [0, 0, 0, 0, 0, 0, 0, 0, 0, 0, 0, 0, 1, 97, 0, 0, 1, 0, 1, 192, 12]) := by
    decide +kernel
  obtain ⟨m1, m2, h1, h2, -⟩ := putAll_eq_some hput
  have hdirect : AllDirect 64 recordA (withId 0 0) 12 [questionA] := by
    refine ⟨by decide +kernel, ?_⟩
    have hx : ((dnsPutNextQr (withId 0 0) 12 64 questionA.name.str questionA.qtype.toNat
        questionA.qclass.toNat).all fun x =>
          decide (PointersDirect 64 recordA.name.dot x.1 x.2 recordA.name.labels)) = true := by
      decide +kernel
    intro x hx'
    rw [hx'] at hx
    have hrec : PointersDirect 64 recordA.name.dot x.1 x.2 recordA.name.labels :=
      of_decide_eq_true hx
    exact hrec
  exact ⟨m2, dns_round_trip (withId 0 0) 64 [questionA] recordA h1 h2 hdirect (by decide)
    (by decide)
    (by simp only [mem_singleton, forall_eq]; decide) (by decide) (by decide)⟩

/-- If the identifier is `0xC00C`, the name of the second question is found at offset 0, where it
looks like a pointer to the first question. `dns_next` takes its first byte for the length of a
label. -/
theorem dns_round_trip_fails :
    ∃ (m m1 m2 : Mem) (off1 off2 : ℕ) (qs : List PutQuestion) (r : PutRecord),
    putQuestions 64 m 12 qs = some (m1, off1) ∧ putRecord 64 m1 off1 r = some (m2, off2) ∧
    off2 ≤ 64 ∧
      (∀ q ∈ qs, q.name.Fits 64) ∧ r.name.Fits 64 ∧ r.rdata.length + 2 ≤ 64 ∧
      ¬ReadsBack m2 64 64 64 (qs.map PutQuestion.read) r.read := by
  have hput : putAll (withId 192 12) [questionA, questionA] =
      some (25, 41, [192, 12, 0, 0, 0, 0, 0, 0, 0, 0, 0, 0, 1, 97, 0, 0, 1, 0, 1, 192, 0]) := by
    decide +kernel
  obtain ⟨m1, m2, h1, h2, hbytes⟩ := putAll_eq_some hput
  refine ⟨withId 192 12, m1, m2, 25, 41, [questionA, questionA], recordA, h1, h2, by decide, ?_,
    by decide, by decide, ?_⟩
  · intro q hq
    obtain rfl : q = questionA := by simpa using hq
    decide
  rintro ⟨e, r, hread, -⟩
  have hm : ∀ i < 21, m2 i = ([192, 12, 0, 0, 0, 0, 0, 0, 0, 0, 0, 0, 1, 97, 0, 0, 1, 0, 1, 192,
    0] :
      List UInt8).getD i 0 := by
    intro i hi
    rw [← hbytes]
    simp [bytesAt, hi]
  have h0 : m2 0 = 192 := hm 0 (by decide)
  have h12 : m2 12 = 1 := hm 12 (by decide)
  have h14 : m2 14 = 0 := hm 14 (by decide)
  have h19 : m2 19 = 192 := hm 19 (by decide)
  have h20 : m2 20 = 0 := hm 20 (by decide)
  have hfirst : DirectName m2 64 12 15 [bytesAt m2 13 (m2 12).toNat] :=
    .label (by rw [h12]; decide) (by rw [h12]; decide) (by rw [h12]; exact .root (by decide) h14)
  cases hread with
  | cons hr hok hrest =>
    obtain ⟨-, e1, txt, hdec, -, hoff, -⟩ := (dnsNext_ok_iff (by decide)).mp ⟨_, hr, hok, rfl, rfl⟩
    obtain rfl := hdec.end_eq hfirst.wireName.ownEnd hfirst.wireName.lt
    rw [hoff] at hrest
    cases hrest with
    | cons hr hok hrest =>
      obtain ⟨-, e2, txt, ⟨n, q, hpass, hq, -, hend⟩, -⟩ :=
        (dnsNext_ok_iff (by decide)).mp ⟨_, hr, hok, rfl, rfl⟩
      have hnone : wireLabel m2 64 19 = none := by
        have hptr : pointerAt m2 19 = 0 := by
          rw [pointerAt, h19, h20]
          rfl
        have hp : IsPointer m2 19 := by
          unfold IsPointer
          rw [h19]
          decide
        unfold wireLabel
        rw [if_neg (by rw [h19]; decide), if_pos hp, hptr, h0]
        exact if_neg (by decide)
      cases n with
      | zero =>
        obtain rfl := some.inj hq
        rcases hend with ⟨hle, -⟩ | ⟨-, hzero, -⟩
        · exact absurd hle (by decide)
        · exact absurd (h19.symm.trans hzero) (by decide)
      | succ n =>
        obtain ⟨q', l, hq', hl, -⟩ := hpass 0 (by omega)
        obtain rfl := some.inj hq'
        exact absurd (hnone.symm.trans hl) (by simp)

end Pptk.Iphdr
